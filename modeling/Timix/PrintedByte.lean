import Timix.VisibleCursor

/-!
# Where a printed byte ends up

After `scr_putbyte(c)` the cell before the cursor holds `c` in the current colour, unless the
cursor was hidden below the last row: then the byte is drawn off the screen, and the screen
scrolls only afterwards.

* `Screen.beforeCursor` — the cell before the cursor in reading order.
* `Screen.before_advance`, `Screen.before_scrolled`, `Screen.before_blanked` — drawing, scrolling
  and blanking the cell under the cursor.
* `Screen.before_drawn`, `Screen.before_missed` — a character on the screen, and below it.
* `Screen.Bounded.printed_before` — what `scr_putbyte` leaves there.

Principal result: `printed_byte_before_cursor_iff`.
-/

set_option autoImplicit false

namespace Timix.Console

open Prog

variable {W H N : Nat}

/-- The cell immediately before the cursor in reading order. -/
def Screen.beforeCursor (s : Screen W H) : Option ConsChar :=
  s.cell? (termCharIndex W s.consCurY s.consCurX - 1)

variable {s : Screen W H} {clear : Int}

/-- The cursor right behind cell `(r, c)`. -/
theorem Screen.before_of_index {r c : Nat} (hr : r < H) (hc : c < W)
    (h : termCharIndex W s.consCurY s.consCurX = ((r * W + c : Nat) : Int) + 1) :
    s.beforeCursor = some (s.at (r * W + c)) := by
  rw [Screen.beforeCursor, h, Int.add_sub_cancel, s.cell?_eq (index_lt hr hc)]

/-- A character is drawn and the cursor moves on. -/
theorem Screen.before_advance {r c : Nat} (hr : r < H) (hc : c < W) (hy : s.consCurY = r)
    (hx : s.consCurX = c) (ch color : Int) :
    (s.draw r c ch color).advance.beforeCursor =
      some ⟨BitVec.ofInt 8 ch, BitVec.ofInt 8 color⟩ := by
  have hon : ¬ ((r : Int) ≥ H ∨ (c : Int) ≥ W) := by omega
  have hdraw : s.draw r c ch color =
      s.put (r * W + c) ⟨BitVec.ofInt 8 ch, BitVec.ofInt 8 color⟩ := by
    rw [Screen.draw, if_neg hon, Int.toNat_natCast, Int.toNat_natCast]
  have hcell : (s.draw r c ch color).at (r * W + c) =
      ⟨BitVec.ofInt 8 ch, BitVec.ofInt 8 color⟩ := by
    rw [hdraw, Screen.at_put (index_lt hr hc), if_pos rfl]
  unfold Screen.advance
  rw [Screen.draw_x, Screen.draw_y, hx, hy]
  by_cases hlast : (c : Int) + 1 ≥ W
  · rw [if_pos hlast, Screen.before_of_index hr hc]
    · exact congrArg some hcell
    · show ((r : Int) + 1) * W + 0 = _
      have hW : (W : Int) = c + 1 := by omega
      rw [Int.add_mul, Int.one_mul, Int.natCast_add, Int.natCast_mul]
      omega
  · rw [if_neg hlast, Screen.before_of_index hr hc]
    · exact congrArg some hcell
    · show (r : Int) * W + ((c : Int) + 1) = _
      rw [Int.natCast_add, Int.natCast_mul]
      omega

/-- Scrolling by one row takes the last cell and the cursor behind it along. -/
theorem Screen.before_scrolled (hW : 0 < W) (hH : 2 ≤ H) (hx : s.consCurX = 0)
    (hy : s.consCurY = H) : (s.scrolled clear 1).beforeCursor = s.beforeCursor := by
  have hindex : ∀ r : Nat, ((r : Int) + 1) * W + 0 = ((r * W + (W - 1) : Nat) : Int) + 1 := by
    intro r
    rw [Int.add_mul, Int.one_mul, Int.natCast_add, Int.natCast_mul]
    omega
  have hnew : (s.scrolled clear 1).beforeCursor =
      some ((s.scrolled clear 1).at ((H - 2) * W + (W - 1))) := by
    apply Screen.before_of_index (by omega) (by omega)
    rw [← hindex]
    show (s.consCurY - (1 : Nat)) * W + s.consCurX = _
    rw [hx, hy]
    congr 2
    omega
  have hold : s.beforeCursor = some (s.at ((H - 1) * W + (W - 1))) := by
    apply Screen.before_of_index (by omega) (by omega)
    rw [← hindex, hx, hy]
    show (H : Int) * W + 0 = _
    congr 2
    omega
  rw [hnew, hold, Screen.at_scrolled s clear (by omega) (by omega), if_pos (by omega)]
  congr 4
  omega

/-- Behind column 0 of the row below, scrolling puts a blank. -/
theorem Screen.before_scrolled_blank (hW : 0 < W) (hH : 0 < H) (hx : s.consCurX = 1)
    (hy : s.consCurY = H) : (s.scrolled clear 1).beforeCursor = some (blank clear) := by
  have hnew : (s.scrolled clear 1).beforeCursor =
      some ((s.scrolled clear 1).at ((H - 1) * W + 0)) := by
    apply Screen.before_of_index (by omega) hW
    show (s.consCurY - (1 : Nat)) * W + s.consCurX = _
    rw [hx, hy, Nat.add_zero, Int.natCast_mul]
    congr 2
    omega
  rw [hnew, Screen.at_scrolled s clear (by omega) hW, if_neg (by omega)]

theorem Screen.cell?_put_ne {i : Int} {k : Nat} (h : i ≠ k) (c : ConsChar) :
    (s.put k c).cell? i = s.cell? i := by
  unfold Screen.cell? Screen.put
  split
  · rename_i hin
    have hne : i.toNat ≠ k := by
      intro he
      apply h
      rw [← he, Int.toNat_of_nonneg hin.1]
    exact congrArg some (if_neg hne)
  · rfl

/-- The blank under the cursor is another cell. -/
theorem Screen.before_blanked (hx : 0 ≤ s.consCurX) (hy : 0 ≤ s.consCurY) :
    s.blanked.beforeCursor = s.beforeCursor := by
  unfold Screen.beforeCursor Screen.blanked
  rw [Screen.draw_x, Screen.draw_y]
  unfold Screen.draw
  split
  · rfl
  · apply Screen.cell?_put_ne
    obtain ⟨r, hr⟩ := Int.eq_ofNat_of_zero_le hy
    obtain ⟨c, hc⟩ := Int.eq_ofNat_of_zero_le hx
    rw [hr, hc, Int.toNat_natCast, Int.toNat_natCast, termCharIndex, Int.natCast_add,
      Int.natCast_mul]
    omega

/-- A cursor on the screen moves below it only from the last cell. -/
theorem Screen.advance_corner (hy : s.consCurY < H) (hbelow : s.advance.consCurY ≥ H) :
    s.advance.consCurX = 0 ∧ s.advance.consCurY = H := by
  unfold Screen.advance at hbelow ⊢
  split at hbelow
  · rename_i hlast
    rw [if_pos hlast]
    replace hbelow : s.consCurY + 1 ≥ H := hbelow
    refine ⟨rfl, ?_⟩
    show s.consCurY + 1 = H
    omega
  · replace hbelow : s.consCurY ≥ H := hbelow
    omega

/-- On the screen: the character is drawn, and `check_cursor` may take it up by a row. -/
theorem Screen.before_drawn (hW : 0 < W) (hH : 2 ≤ H) (hx : 0 ≤ s.consCurX)
    (hxW : s.consCurX < W) (hy : 0 ≤ s.consCurY) (hyH : s.consCurY < H) (ch color : Int) :
    ((s.draw s.consCurY s.consCurX ch color).advance.settled clear).beforeCursor =
      some ⟨BitVec.ofInt 8 ch, BitVec.ofInt 8 color⟩ := by
  obtain ⟨r, hr⟩ := Int.eq_ofNat_of_zero_le hy
  obtain ⟨k, hk⟩ := Int.eq_ofNat_of_zero_le hx
  rw [hr, hk, ← Screen.before_advance (by omega) (by omega) hr hk]
  unfold Screen.settled
  split
  · rename_i hscroll
    obtain ⟨hx0, hyH'⟩ := Screen.advance_corner (by rwa [Screen.draw_y]) hscroll.2
    rw [hyH', show ((H : Int) - H + 1).toNat = 1 by omega]
    exact Screen.before_scrolled hW hH hx0 hyH'
  · rfl

/-- Below the screen: nothing is drawn, and `check_cursor` scrolls. -/
theorem Screen.before_missed (hW : 2 ≤ W) (hH : 0 < H) (hx : s.consCurX = 0)
    (hy : s.consCurY = H) (ch color : Int) :
    ((s.draw s.consCurY s.consCurX ch color).advance.settled clear).beforeCursor =
      some (blank clear) := by
  have hadvance : (s.draw s.consCurY s.consCurX ch color).advance = { s with consCurX := 1 } := by
    rw [Screen.draw, if_pos (Or.inl (by omega)), Screen.advance, hx, if_neg (by omega)]
    rfl
  rw [hadvance, Screen.settled, if_pos]
  · rw [hy, show ((H : Int) - H + 1).toNat = 1 by omega]
    exact Screen.before_scrolled_blank (by omega) hH rfl rfl
  · refine ⟨?_, by show s.consCurY ≥ H; omega⟩
    rintro ⟨-, -, hone⟩
    cases hone

/-- **What a byte leaves before the cursor.** -/
theorem Screen.Bounded.printed_before (h : s.Bounded) (hW : 2 ≤ W) (hH : 2 ≤ H) {c : BitVec 8}
    (hnl : c ≠ 10) (hcr : c ≠ 13) (hbs : c ≠ 8) :
    (s.printed clear c).beforeCursor =
      if s.consCurY = H then some (blank clear)
      else some ⟨c, BitVec.ofInt 8 s.consCurColor⟩ := by
  have hact : s.act c = (s.draw s.consCurY s.consCurX c.toInt s.consCurColor).advance := by
    rw [Screen.act, if_neg hnl, if_neg hcr, if_neg hbs]
  have hmoved := h.moved (by omega) c
  obtain ⟨hx, hxW, hy, hyH, hbelow⟩ := h
  have hpos : 0 ≤ (s.act c).consCurX := by
    rw [hact]
    unfold Screen.advance
    rw [Screen.draw_x]
    split
    · exact Int.le_refl 0
    · show 0 ≤ s.consCurX + 1
      omega
  have hwrap : (s.act c).wrapLeft = s.act c := by
    rw [Screen.wrapLeft, if_neg (by omega)]
  have hsettled := Screen.settled_bounded clear hpos hmoved.x_lt hmoved.y_nonneg hmoved.y_le
    (by omega)
  unfold Screen.printed
  rw [hwrap, Screen.before_blanked hsettled.x_nonneg hsettled.y_nonneg, hact]
  by_cases hlast : s.consCurY = H
  · rw [if_pos hlast]
    exact Screen.before_missed hW (by omega) (hbelow hlast) hlast _ _
  · rw [if_neg hlast, Screen.before_drawn (by omega) hH hx hxW hy (by omega), BitVec.ofInt_toInt]

/-- **When a printed byte is not lost.**  From every state of the driver, on every screen,
`scr_putbyte` of a byte that is not a control character leaves it before the cursor, in the current
colour, exactly if the cursor is not below the last row, or the byte looks like the blank that
scrolling puts there. -/
theorem printed_byte_before_cursor_iff (hW : 2 ≤ W) (hH : 2 ≤ H) (clear white : Int)
    (video : Fin (W * H) → ConsChar) (bufs : Fin N → Fin (W * H) → ConsChar) (idx : Fin N)
    (calls : List (DriverCall N)) {d : Driver W H N}
    (h : Lts.exec (Driver.step clear) (.init video bufs white idx) calls = some d) (n : Fin N)
    (c : BitVec 8) (hnl : c ≠ 10) (hcr : c ≠ 13) (hbs : c ≠ 8) :
    ∃ t, (scrPutbyte clear c).run (d.logical n) = some (c.toInt, t) ∧
      t.consCurColor = (d.logical n).consCurColor ∧
      (t.beforeCursor = some ⟨c, BitVec.ofInt 8 t.consCurColor⟩ ↔
        (d.logical n).consCurY ≠ H ∨
          (c = 32 ∧ BitVec.ofInt 8 (d.logical n).consCurColor = BitVec.ofInt 8 clear)) := by
  have hb := ((Driver.regular_of_exec (by omega) (by omega) h) n).bounded
  have hbyte : Ensures (fun r t => r = c.toInt ∧ t = (d.logical n).printed clear c)
      (scrPutbyte clear c) (d.logical n) := hb.ensures_putbyte (by omega) hH c
  obtain ⟨_, t, hrun, rfl, rfl⟩ := hbyte.run
  have hcolor : ((d.logical n).printed clear c).consCurColor = (d.logical n).consCurColor :=
    Screen.printed_color ..
  refine ⟨_, hrun, hcolor, ?_⟩
  rw [hcolor, hb.printed_before hW hH hnl hcr hbs]
  by_cases hlast : (d.logical n).consCurY = H
  · rw [if_pos hlast, Option.some_inj]
    constructor
    · intro heq
      obtain ⟨hcode, hcol⟩ := ConsChar.mk.inj heq
      exact Or.inr ⟨hcode.symm, hcol.symm⟩
    · rintro (hne | ⟨rfl, hcol⟩)
      · exact absurd hlast hne
      · rw [hcol]
        rfl
  · rw [if_neg hlast]
    exact iff_of_true rfl (Or.inl hlast)

/-- `hide_cursor`, and then these bytes. -/
def printHidden (n : Fin N) (str : List (BitVec 8)) : List (DriverCall N) :=
  .op n .hideCursor :: str.map fun c => .op n (.putbyte c)

/-- The last of four bytes on a screen of four cells is there, with the cursor below; -/
theorem fourth_byte_kept : ∃ d t, Lts.exec (Driver.step 0)
    (Driver.init (fun _ => default) (fun _ _ => default) 15 0 : Driver 2 2 1)
      (printHidden 0 [65, 66, 67]) = some d ∧
    (scrPutbyte 0 68).run (d.logical 0) = some (68, t) ∧
    t.beforeCursor = some ⟨68, BitVec.ofInt 8 t.consCurColor⟩ := by
  obtain ⟨t, hrun, -, hiff⟩ := printed_byte_before_cursor_iff (W := 2) (H := 2) (N := 1)
    (by decide) (by decide) 0 15 (fun _ => default) (fun _ _ => default) 0
    (printHidden 0 [65, 66, 67]) rfl 0 68 (by decide) (by decide) (by decide)
  exact ⟨_, t, rfl, hrun, hiff.2 (Or.inl (by decide))⟩

/-- the fifth is lost. -/
theorem fifth_byte_lost : ∃ d t, Lts.exec (Driver.step 0)
    (Driver.init (fun _ => default) (fun _ _ => default) 15 0 : Driver 2 2 1)
      (printHidden 0 [65, 66, 67, 68]) = some d ∧
    (scrPutbyte 0 69).run (d.logical 0) = some (69, t) ∧
    t.beforeCursor ≠ some ⟨69, BitVec.ofInt 8 t.consCurColor⟩ :=
  ⟨_, _, rfl, rfl, by decide⟩

end Timix.Console
