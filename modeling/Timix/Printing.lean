import Timix.Screen

/-!
# What printing does to a screen

`scr_putbyte` as a function on screens: the byte, `check_cursor`, and the blank under the cursor.

* `Screen.Bounded`, `Screen.Moved` — the cursor between two operations, and when `check_cursor` is
  called.
* `Screen.act`, `Screen.wrapLeft`, `Screen.settled`, `Screen.blanked` — the parts of it, and
  `Screen.printed` all together.
* `ensures_byteAct`, `ensures_checkCursor`, `ensures_afterByte` — the programs compute them.

Principal results: `Screen.Bounded.ensures_putbyte` and `Screen.Bounded.run_putbyte`.
-/

set_option autoImplicit false

namespace Timix.Console

open Prog

variable {W H : Nat}

/-- The cursor between two operations. -/
structure Screen.Bounded (s : Screen W H) : Prop where
  x_nonneg : 0 ≤ s.consCurX
  x_lt : s.consCurX < W
  y_nonneg : 0 ≤ s.consCurY
  y_le : s.consCurY ≤ H
  below : s.consCurY = H → s.consCurX = 0

/-- The cursor when `check_cursor` is called. -/
structure Screen.Moved (s : Screen W H) : Prop where
  x_ge : -1 ≤ s.consCurX
  x_lt : s.consCurX < W
  y_nonneg : 0 ≤ s.consCurY
  y_le : s.consCurY ≤ H + 1
  left : s.consCurX = -1 → s.consCurY ≤ H

variable {s : Screen W H} {clear : Int}

theorem Screen.moved_to (s : Screen W H) {x y : Int} (hx : -1 ≤ x) (hxW : x < W) (hy : 0 ≤ y)
    (hyH : y ≤ H + 1) (hleft : x = -1 → y ≤ H) :
    Screen.Moved { s with consCurX := x, consCurY := y } :=
  ⟨hx, hxW, hy, hyH, hleft⟩

/-- A screen with the same cursor. -/
theorem Screen.Bounded.cells (h : s.Bounded) {t : Screen W H} (hx : t.consCurX = s.consCurX)
    (hy : t.consCurY = s.consCurY) : t.Bounded := by
  constructor
  · rw [hx]
    exact h.x_nonneg
  · rw [hx]
    exact h.x_lt
  · rw [hy]
    exact h.y_nonneg
  · rw [hy]
    exact h.y_le
  · rw [hx, hy]
    exact h.below

/-! ## What the functions compute -/

/-- `scr_draw_char` at a position that is not negative. -/
def Screen.draw (s : Screen W H) (row col ch color : Int) : Screen W H :=
  if row ≥ H ∨ col ≥ W then s
  else s.put (row.toNat * W + col.toNat) ⟨BitVec.ofInt 8 ch, BitVec.ofInt 8 color⟩

section Draw

variable (s) (row col ch color : Int)

@[simp] theorem Screen.draw_x : (s.draw row col ch color).consCurX = s.consCurX := by
  unfold Screen.draw
  split <;> rfl

@[simp] theorem Screen.draw_y : (s.draw row col ch color).consCurY = s.consCurY := by
  unfold Screen.draw
  split <;> rfl

@[simp] theorem Screen.draw_state : (s.draw row col ch color).consCurState = s.consCurState := by
  unfold Screen.draw
  split <;> rfl

@[simp] theorem Screen.draw_color : (s.draw row col ch color).consCurColor = s.consCurColor := by
  unfold Screen.draw
  split <;> rfl

end Draw

theorem ensures_draw {row col : Int} (hr : 0 ≤ row) (hc : 0 ≤ col) (ch color : Int) :
    Ensures (fun _ t => t = s.draw row col ch color) (scrDrawChar row col ch color) s := by
  unfold Screen.draw
  by_cases hoff : row ≥ H ∨ col ≥ W
  · rw [if_pos hoff, ensures_scrDrawChar_off hoff]
  · obtain ⟨r, rfl⟩ := Int.eq_ofNat_of_zero_le hr
    obtain ⟨c, rfl⟩ := Int.eq_ofNat_of_zero_le hc
    rw [if_neg hoff, ensures_scrDrawChar (by omega) (by omega), Int.toNat_natCast,
      Int.toNat_natCast]

/-- The cursor behind a character. -/
def Screen.advance (s : Screen W H) : Screen W H :=
  if s.consCurX + 1 ≥ W then { s with consCurX := 0, consCurY := s.consCurY + 1 }
  else { s with consCurX := s.consCurX + 1 }

/-- What a byte does before `check_cursor`. -/
def Screen.act (s : Screen W H) (c : BitVec 8) : Screen W H :=
  if c = 10 then { s with consCurX := 0, consCurY := s.consCurY + 1 }
  else if c = 13 then { s with consCurX := 0 }
  else if c = 8 then { s with consCurX := s.consCurX - 1 }
  else (s.draw s.consCurY s.consCurX c.toInt s.consCurColor).advance

/-- `check_cursor` with the cursor left of the screen. -/
def Screen.wrapLeft (s : Screen W H) : Screen W H :=
  if s.consCurX < 0 then
    if s.consCurY > 0 then { s with consCurX := W - 1, consCurY := s.consCurY - 1 }
    else { s with consCurX := 0 }
  else s

/-- `check_cursor` with the cursor below the last row. -/
def Screen.settled (s : Screen W H) (clear : Int) : Screen W H :=
  if ¬ (s.consCurY = H ∧ s.consCurState = CURSOR_STATE_HIDDEN ∧ s.consCurX = 0) ∧
      s.consCurY ≥ H then
    s.scrolled clear (s.consCurY - H + 1).toNat
  else s

/-- The blank under the cursor. -/
def Screen.blanked (s : Screen W H) : Screen W H :=
  s.draw s.consCurY s.consCurX SPACE s.consCurColor

/-- `scr_putbyte`. -/
def Screen.printed (s : Screen W H) (clear : Int) (c : BitVec 8) : Screen W H :=
  ((s.act c).wrapLeft.settled clear).blanked

/-- What printing does not set. -/
def Screen.settings (s : Screen W H) : Int × Int := (s.consCurState, s.consCurColor)

theorem Screen.wrapLeft_settings (s : Screen W H) : s.wrapLeft.settings = s.settings := by
  unfold Screen.wrapLeft
  split
  · split <;> rfl
  · rfl

theorem Screen.draw_settings (s : Screen W H) (row col ch color : Int) :
    (s.draw row col ch color).settings = s.settings := by
  simp [Screen.settings]

theorem Screen.act_settings (s : Screen W H) (c : BitVec 8) :
    (s.act c).settings = s.settings := by
  unfold Screen.act Screen.advance
  split
  · rfl
  split
  · rfl
  split
  · rfl
  split
  · exact s.draw_settings ..
  · exact s.draw_settings ..

theorem Screen.settled_settings (s : Screen W H) (clear : Int) :
    (s.settled clear).settings = s.settings := by
  unfold Screen.settled
  split <;> rfl

theorem Screen.printed_settings (s : Screen W H) (clear : Int) (c : BitVec 8) :
    (s.printed clear c).settings = s.settings := by
  unfold Screen.printed Screen.blanked
  rw [Screen.draw_settings, Screen.settled_settings, Screen.wrapLeft_settings,
    Screen.act_settings]

theorem Screen.printed_state (s : Screen W H) (clear : Int) (c : BitVec 8) :
    (s.printed clear c).consCurState = s.consCurState :=
  congrArg Prod.fst (s.printed_settings clear c)

theorem Screen.printed_color (s : Screen W H) (clear : Int) (c : BitVec 8) :
    (s.printed clear c).consCurColor = s.consCurColor :=
  congrArg Prod.snd (s.printed_settings clear c)

/-- A byte leaves the cursor where `check_cursor` expects it. -/
theorem Screen.Bounded.moved (h : s.Bounded) (hW : 0 < W) (c : BitVec 8) : (s.act c).Moved := by
  obtain ⟨hx, hxW, hy, hyH, hbelow⟩ := h
  unfold Screen.act
  by_cases hnl : c = 10
  · rw [if_pos hnl]
    exact s.moved_to (by omega) (by omega) (by omega) (by omega) (by omega)
  rw [if_neg hnl]
  by_cases hcr : c = 13
  · rw [if_pos hcr]
    exact s.moved_to (by omega) (by omega) hy (by omega) (by omega)
  rw [if_neg hcr]
  by_cases hbs : c = 8
  · rw [if_pos hbs]
    exact s.moved_to (by omega) (by omega) hy (by omega) fun _ => hyH
  · rw [if_neg hbs]
    unfold Screen.advance
    rw [Screen.draw_x, Screen.draw_y]
    split
    · exact Screen.moved_to _ (by omega) (by omega) (by omega) (by omega) (by omega)
    · exact Screen.moved_to _ (by omega) (by omega) (by omega) (by omega) (by omega)

/-- The cursor after the first half of `check_cursor`. -/
theorem Screen.Moved.wrapLeft (h : s.Moved) (hW : 0 < W) :
    0 ≤ s.wrapLeft.consCurX ∧ s.wrapLeft.consCurX < W ∧ 0 ≤ s.wrapLeft.consCurY ∧
      s.wrapLeft.consCurY ≤ H + 1 := by
  obtain ⟨hx, hxW, hy, hyH, hleft⟩ := h
  unfold Screen.wrapLeft
  split
  · split
    · refine ⟨?_, ?_, ?_, ?_⟩
      all_goals dsimp only; omega
    · refine ⟨?_, ?_, hy, hyH⟩
      all_goals dsimp only; omega
  · exact ⟨by omega, hxW, hy, hyH⟩

theorem Screen.settled_bounded (clear : Int) (hx : 0 ≤ s.consCurX) (hxW : s.consCurX < W)
    (hy : 0 ≤ s.consCurY) (hyH : s.consCurY ≤ H + 1) (hH : 0 < H) : (s.settled clear).Bounded := by
  unfold Screen.settled
  split
  · rename_i hscroll
    obtain ⟨n, hn⟩ := Int.eq_ofNat_of_zero_le (a := s.consCurY - H + 1) (by omega)
    have hlast : (s.scrolled clear (s.consCurY - H + 1).toNat).consCurY = H - 1 := by
      show s.consCurY - ((s.consCurY - H + 1).toNat : Int) = H - 1
      omega
    refine ⟨hx, hxW, ?_, ?_, ?_⟩
    · omega
    · omega
    · omega
  · exact ⟨hx, hxW, hy, by omega, by omega⟩

/-- **The screen after a byte** has its cursor in bounds. -/
theorem Screen.Bounded.printed (h : s.Bounded) (clear : Int) (hW : 0 < W) (hH : 0 < H)
    (c : BitVec 8) :
    (s.printed clear c).Bounded := by
  obtain ⟨hx, hxW, hy, hyH⟩ := (h.moved hW c).wrapLeft hW
  exact (Screen.settled_bounded clear hx hxW hy hyH hH).cells (Screen.draw_x ..)
    (Screen.draw_y ..)

/-- Behind a character. -/
def advanceCursor : ScrProg W H Unit := do
  let x ← getX
  setX (x + 1)
  let x ← getX
  if x ≥ W then
    setX 0
    let y ← getY
    setY (y + 1)

/-- `scr_putbyte` up to the call of `check_cursor`. -/
def byteAct (c : BitVec 8) : ScrProg W H Unit :=
  if c = 10 then do
    setX 0
    let y ← getY
    setY (y + 1)
  else if c = 13 then
    setX 0
  else if c = 8 then do
    let x ← getX
    setX (x - 1)
  else do
    let row ← getY
    let col ← getX
    let color ← getColor
    scrDrawChar row col c.toInt color
    advanceCursor

/-- What `scr_putbyte` does after the byte itself. -/
def afterByte (clear : Int) (c : BitVec 8) : ScrProg W H Int := do
  checkCursor clear
  let row ← getY
  let col ← getX
  let color ← getColor
  scrDrawChar row col SPACE color
  return c.toInt

theorem scrPutbyte_act (clear : Int) (c : BitVec 8) :
    (scrPutbyte clear c : ScrProg W H Int) = byteAct c >>= fun _ => afterByte clear c := by
  simp only [scrPutbyte, byteAct, advanceCursor, afterByte, ite_bind, bind_assoc, pure_bind]

theorem ensures_advanceCursor : Ensures (fun _ t => t = s.advance) advanceCursor s := by
  unfold advanceCursor Screen.advance
  simp only [getX, getY, setX, setY, ensures_bind, ensures_read, ensures_modify, ensures_ite,
    ensures_pure]
  split
  · rfl
  · rfl

theorem Screen.Bounded.ensures_byteAct (h : s.Bounded) (c : BitVec 8) :
    Ensures (fun _ t => t = s.act c) (byteAct c) s := by
  unfold byteAct Screen.act
  by_cases hnl : c = 10
  · rw [if_pos hnl, if_pos hnl]
    simp only [setX, getY, setY, ensures_bind, ensures_read, ensures_modify]
  rw [if_neg hnl, if_neg hnl]
  by_cases hcr : c = 13
  · rw [if_pos hcr, if_pos hcr]
    simp only [setX, ensures_modify]
  rw [if_neg hcr, if_neg hcr]
  by_cases hbs : c = 8
  · rw [if_pos hbs, if_pos hbs]
    simp only [setX, getX, ensures_bind, ensures_read, ensures_modify]
  · rw [if_neg hbs, if_neg hbs]
    simp only [getX, getY, getColor, ensures_bind, ensures_read]
    apply (ensures_draw h.y_nonneg h.x_nonneg c.toInt s.consCurColor).of_eq
    exact ensures_advanceCursor

/-- The first part of `check_cursor`. -/
def wrapCheck : ScrProg W H Unit := do
  let x ← getX
  if x ≥ W then
    setX 0
    let y ← getY
    setY (y + 1)
  let x ← getX
  if x < 0 then
    let y ← getY
    if y > 0 then
      setY (y - 1)
      setX (W - 1)
    else
      setX 0

/-- The last part of `check_cursor`, once the column is on the screen. -/
def scrollCheck (clear : Int) : ScrProg W H Unit := do
  let x ← getX
  let y ← getY
  let state ← getState
  if ¬ (y = H ∧ state = CURSOR_STATE_HIDDEN ∧ x = 0) ∧ y ≥ H then
    let n := (y - H) + 1
    scrollback clear n

theorem checkCursor_wrap (clear : Int) :
    (checkCursor clear : ScrProg W H Unit) = wrapCheck >>= fun _ => scrollCheck clear := by
  simp only [checkCursor, wrapCheck, scrollCheck, ite_bind, bind_assoc, pure_bind]

theorem ensures_wrapCheck (hxW : s.consCurX < W) :
    Ensures (fun _ t => t = s.wrapLeft) wrapCheck s := by
  have h1 : ¬ s.consCurX ≥ W := by omega
  unfold wrapCheck Screen.wrapLeft
  simp only [getX, getY, setX, setY, ensures_bind, ensures_read, ensures_ite, ensures_modify,
    ensures_pure, if_neg h1]
  split
  · split
    · rfl
    · rfl
  · rfl

theorem ensures_scrollCheck (hfit : s.consCurY < 2 * H) :
    Ensures (fun _ t => t = s.settled clear) (scrollCheck clear) s := by
  unfold scrollCheck Screen.settled
  simp only [getX, getY, getState, ensures_bind, ensures_read, ensures_ite, ensures_pure]
  split
  · rename_i hscroll
    obtain ⟨n, hn⟩ := Int.eq_ofNat_of_zero_le (a := s.consCurY - H + 1) (by omega)
    rw [hn, Int.toNat_natCast]
    exact ensures_scrollback (s := s) (n := n) (by omega) clear
  · rfl

/-- `memcpy` of a negative length. -/
theorem scrollCheck_fails (hW : 0 < W) (hH : 0 < H) (hfar : 2 * H ≤ s.consCurY) :
    (scrollCheck clear).run s = none := by
  have hbelow : ¬ (s.consCurY = H ∧ s.consCurState = CURSOR_STATE_HIDDEN ∧ s.consCurX = 0) ∧
      s.consCurY ≥ H := by omega
  have hlen : ((H : Int) - (s.consCurY - H + 1)) * W < 0 :=
    Int.mul_neg_of_neg_of_pos (by omega) (by omega)
  have hrun : (scrollCheck clear).run s = (scrollback clear (s.consCurY - H + 1)).run s := by
    show (if ¬ (s.consCurY = H ∧ s.consCurState = CURSOR_STATE_HIDDEN ∧ s.consCurX = 0) ∧
      s.consCurY ≥ H then scrollback clear (s.consCurY - H + 1) else pure ()).run s = _
    rw [if_pos hbelow]
  rw [hrun, scrollback, memcpyFront, if_pos hlen]
  rfl

/-- **`check_cursor`** brings the cursor back, and scrolls by one row or by two. -/
theorem Screen.Moved.ensures_checkCursor (h : s.Moved) (hfit : s.wrapLeft.consCurY < 2 * H) :
    Ensures (fun _ t => t = s.wrapLeft.settled clear) (checkCursor clear) s := by
  rw [checkCursor_wrap, ensures_bind]
  apply (ensures_wrapCheck h.x_lt).of_eq
  exact ensures_scrollCheck hfit

/-- What follows the byte itself. -/
theorem ensures_afterByte (h : s.Moved) (hW : 0 < W) (hH : 0 < H)
    (hfit : s.wrapLeft.consCurY < 2 * H) (c : BitVec 8) :
    Ensures (fun r t => r = c.toInt ∧ t = (s.wrapLeft.settled clear).blanked)
      (afterByte clear c) s := by
  obtain ⟨hx, hxW, hy, hyH⟩ := h.wrapLeft hW
  have hb := Screen.settled_bounded clear hx hxW hy hyH hH
  unfold afterByte
  rw [ensures_bind]
  apply (h.ensures_checkCursor hfit).of_eq
  simp only [getX, getY, getColor, ensures_bind, ensures_read, ensures_pure]
  apply (ensures_draw hb.y_nonneg hb.x_nonneg SPACE _).of_eq
  exact ⟨trivial, rfl⟩

/-- One byte, unless it asks for more rows than there are. -/
theorem Screen.Bounded.ensures_putbyte_fit (h : s.Bounded) (hW : 0 < W) (hH : 0 < H)
    {c : BitVec 8} (hfit : (s.act c).wrapLeft.consCurY < 2 * H) :
    Ensures (fun r t => r = c.toInt ∧ t = s.printed clear c) (scrPutbyte clear c) s := by
  rw [scrPutbyte_act, ensures_bind]
  apply (h.ensures_byteAct c).of_eq
  exact ensures_afterByte (h.moved hW c) hW hH hfit c

/-- **One byte.** -/
theorem Screen.Bounded.ensures_putbyte (h : s.Bounded) (hW : 0 < W) (hH : 2 ≤ H) (c : BitVec 8) :
    Ensures (fun r t => r = c.toInt ∧ t = s.printed clear c) (scrPutbyte clear c) s := by
  obtain ⟨-, -, -, hyH⟩ := (h.moved hW c).wrapLeft hW
  exact h.ensures_putbyte_fit hW (by omega) (by omega)

/-- On a screen of one row a byte may ask for two rows; if it does not, it does the same. -/
theorem Screen.Bounded.run_putbyte (h : s.Bounded) (hW : 0 < W) (hH : 0 < H) {c : BitVec 8}
    {r : Int} {t : Screen W H} (hrun : (scrPutbyte clear c).run s = some (r, t)) :
    t = s.printed clear c := by
  by_cases hfit : (s.act c).wrapLeft.consCurY < 2 * H
  · exact ((h.ensures_putbyte_fit hW hH hfit).of_run hrun).2
  · have hmoved := h.moved hW c
    have hfail : (afterByte clear c).run (s.act c) = none := by
      unfold afterByte
      rw [checkCursor_wrap, bind_assoc, (ensures_wrapCheck hmoved.x_lt).run_bind, run_bind,
        scrollCheck_fails hW hH (by omega), Option.bind_none]
    rw [scrPutbyte_act, (h.ensures_byteAct c).run_bind, hfail] at hrun
    cases hrun

end Timix.Console
