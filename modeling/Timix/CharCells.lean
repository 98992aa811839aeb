import Timix.VisibleCursor

/-!
# `draw_char` and `get_char`

Both compute the index of a cell from a row and a column, after a check of their own:
`scr_draw_char` lets negative rows and columns through, `scr_get_char` compares the column with
`CONSOLE_HEIGHT`.

* `lastDrawn` — what a list of draws leaves at a position.
* `Screen.drawAll_at` — the same of the buffer.
* `run_scrDrawChar` — `scr_draw_char` for all arguments.
* `Screen.SameBut` — nothing changed but one cell; `Screen.sameBut_put_iff` — when that is so of
  the cell written.

Principal results: `get_char_reads_back_iff` and `draw_char_confined_iff`.
-/

set_option autoImplicit false

namespace Timix.Console

open Prog

variable {W H : Nat}

/-- The arguments of a `draw_char`. -/
structure Draw where
  row : Int
  col : Int
  ch : Int
  color : Int
  deriving DecidableEq, Repr

/-- The call. -/
def Draw.op (d : Draw) : Op := .drawChar d.row d.col d.ch d.color

/-- Its position is on the screen. -/
structure Draw.OnScreen (W H : Nat) (d : Draw) : Prop where
  row_nonneg : 0 ≤ d.row
  row_lt : d.row < H
  col_nonneg : 0 ≤ d.col
  col_lt : d.col < W

instance (d : Draw) : Decidable (d.OnScreen W H) :=
  decidable_of_iff ((0 ≤ d.row ∧ d.row < H) ∧ 0 ≤ d.col ∧ d.col < W)
    ⟨fun h => ⟨h.1.1, h.1.2, h.2.1, h.2.2⟩, fun h => ⟨⟨h.1, h.2⟩, h.3, h.4⟩⟩

/-- The character of the last draw at exactly this position, or else `original`. -/
def lastDrawn (draws : List Draw) (row col : Int) (original : BitVec 8) : BitVec 8 :=
  match (draws.filter fun d => d.row = row ∧ d.col = col).getLast? with
  | some d => BitVec.ofInt 8 d.ch
  | none => original

variable {s t : Screen W H} {clear : Int}

theorem lastDrawn_concat (draws : List Draw) (d : Draw) (row col : Int) (original : BitVec 8) :
    lastDrawn (draws ++ [d]) row col original =
      if d.row = row ∧ d.col = col then BitVec.ofInt 8 d.ch
      else lastDrawn draws row col original := by
  unfold lastDrawn
  by_cases hd : d.row = row ∧ d.col = col
  · simp [hd]
  · simp [hd]

/-! ## Reading back -/

/-- **Draws on the screen** leave at every position what was drawn there last. -/
theorem Screen.drawAll_at (clear : Int) (s : Screen W H) {draws : List Draw}
    (h : ∀ d ∈ draws, d.OnScreen W H) :
    ∃ t, runOps clear (draws.map Draw.op) s = some t ∧ ∀ r < H, ∀ c < W,
      (t.at (r * W + c)).ccCode = lastDrawn draws r c (s.at (r * W + c)).ccCode := by
  induction draws using List.reverseRecOn with
  | nil => exact ⟨s, rfl, fun _ _ _ _ => rfl⟩
  | append_singleton draws d ih =>
    obtain ⟨t, hrun, hat⟩ := ih fun e he => h e (List.mem_append_left _ he)
    obtain ⟨hr0, hrH, hc0, hcW⟩ := h d (by simp)
    obtain ⟨r, hr⟩ := Int.eq_ofNat_of_zero_le hr0
    obtain ⟨c, hc⟩ := Int.eq_ofNat_of_zero_le hc0
    have hdraw : Ensures
        (fun _ u => u = t.put (r * W + c) ⟨BitVec.ofInt 8 d.ch, BitVec.ofInt 8 d.color⟩)
        (d.op.prog clear) t := by
      unfold Draw.op Op.prog
      rw [ensures_bind, hr, hc, ensures_scrDrawChar (by omega) (by omega)]
      rfl
    obtain ⟨_, _, hlast, rfl⟩ := hdraw.run
    refine ⟨t.put (r * W + c) ⟨BitVec.ofInt 8 d.ch, BitVec.ofInt 8 d.color⟩, ?_, ?_⟩
    · unfold runOps at hrun ⊢
      rw [List.map_append, List.map_append]
      exact (replay_concat _ _ hrun).trans (by rw [hlast]; rfl)
    · intro r' hr' c' hc'
      rw [Screen.at_put (index_lt (by omega) (by omega)), lastDrawn_concat, hr, hc]
      simp only [index_inj hc' (show c < W by omega), Int.natCast_inj, eq_comm (a := r'),
        eq_comm (a := c')]
      split
      · rfl
      · exact hat r' hr' c' hc'

/-- `scr_get_char` on the screen. -/
theorem run_scrGetChar {r c : Nat} (hr : r < H) (hc : c < W) :
    (scrGetChar r c).run s = some (if c < H then (s.at (r * W + c)).ccCode else 0, s) := by
  have hcast : termCharIndex W r c = ((r * W + c : Nat) : Int) := by
    simp [termCharIndex]
  unfold scrGetChar
  by_cases hcH : c < H
  · have hin : ¬ ((r : Int) < 0 ∨ (c : Int) < 0 ∨ (r : Int) ≥ H ∨ (c : Int) ≥ H) := by omega
    rw [if_neg hin, if_pos hcH, run_bind, hcast]
    show Option.bind (some (s.cell? ((r * W + c : Nat) : Int), s)) _ = _
    rw [s.cell?_eq (index_lt hr hc)]
    rfl
  · have hout : (r : Int) < 0 ∨ (c : Int) < 0 ∨ (r : Int) ≥ H ∨ (c : Int) ≥ H := by omega
    rw [if_pos hout, if_neg hcH]
    rfl

theorem run_getChar {r c : Nat} (hr : r < H) (hc : c < W) :
    ((Op.getChar r c).prog clear).run s =
      some (⟨(if c < H then (s.at (r * W + c)).ccCode else 0).toInt, []⟩, s) := by
  show (scrGetChar r c >>= fun ch => (pure ⟨ch.toInt, []⟩ : ScrProg W H Reply)).run s = _
  rw [run_bind, run_scrGetChar hr hc]
  rfl

/-- **When `get_char` reads back what `draw_char` wrote.**  After any draws on the screen, at any
position on it, `get_char` returns the last character drawn there, or the one that was there
before, exactly if the column is below `CONSOLE_HEIGHT` or that character is NUL. -/
theorem get_char_reads_back_iff (clear : Int) (s : Screen W H) (draws : List Draw)
    (h : ∀ d ∈ draws, d.OnScreen W H) (row col : Nat) (hr : row < H) (hc : col < W) :
    ∃ t r, runOps clear (draws.map Draw.op) s = some t ∧
      ((Op.getChar row col).prog clear).run t = some (r, t) ∧
      (r = ⟨(lastDrawn draws row col (s.at (row * W + col)).ccCode).toInt, []⟩ ↔
        col < H ∨ lastDrawn draws row col (s.at (row * W + col)).ccCode = 0) := by
  obtain ⟨t, hrun, hat⟩ := s.drawAll_at clear h
  refine ⟨t, _, hrun, run_getChar hr hc, ?_⟩
  rw [hat row hr col hc]
  generalize lastDrawn draws row col (s.at (row * W + col)).ccCode = ch
  by_cases hcH : col < H
  · rw [if_pos hcH]
    exact iff_of_true rfl (Or.inl hcH)
  · rw [if_neg hcH]
    constructor
    · intro heq
      have hint : (0 : BitVec 8).toInt = ch.toInt := (Reply.mk.inj heq).1
      exact Or.inr (BitVec.toInt_inj.1 hint).symm
    · rintro (hlt | rfl)
      · exact absurd hlt hcH
      · rfl

/-- On a screen of 80 columns and 25 rows, an `A` drawn in column 3 is read back, -/
theorem column_3_read_back : ∃ t r, runOps 0
    ([⟨2, 3, 67, 7⟩, ⟨2, 4, 66, 7⟩, ⟨2, 3, 321, 7⟩].map Draw.op)
      (initScreen (fun _ => default) 7 : Screen 80 25) = some t ∧
    ((Op.getChar (2 : Nat) (3 : Nat)).prog 0).run t = some (r, t) ∧ r = ⟨65, []⟩ := by
  obtain ⟨t, r, hrun, hget, hiff⟩ := get_char_reads_back_iff 0
    (initScreen (fun _ => default) 7 : Screen 80 25)
    [⟨2, 3, 67, 7⟩, ⟨2, 4, 66, 7⟩, ⟨2, 3, 321, 7⟩] (by decide) 2 3 (by decide) (by decide)
  exact ⟨t, r, hrun, hget, hiff.2 (Or.inl (by decide))⟩

/-- and one drawn in column 30 is not. -/
theorem column_30_not_read_back : ∃ t r, runOps 0 ([⟨2, 30, 65, 7⟩].map Draw.op)
    (initScreen (fun _ => default) 7 : Screen 80 25) = some t ∧
    ((Op.getChar (2 : Nat) (30 : Nat)).prog 0).run t = some (r, t) ∧
    r ≠ ⟨(lastDrawn [⟨2, 30, 65, 7⟩] (2 : Nat) (30 : Nat) 0).toInt, []⟩ :=
  ⟨_, _, rfl, rfl, by decide⟩

/-! ## Confinement -/

/-- From `s` to `t` nothing changed but the cell at this position, if it is on the screen. -/
structure Screen.SameBut (s : Screen W H) (row col : Int) (t : Screen W H) : Prop where
  cursor : t.cursor = s.cursor
  color : t.consCurColor = s.consCurColor
  cells : ∀ r < H, ∀ c < W, ¬ ((r : Int) = row ∧ (c : Int) = col) →
    t.at (r * W + c) = s.at (r * W + c)

theorem Screen.SameBut.refl (s : Screen W H) (row col : Int) : s.SameBut row col s :=
  ⟨rfl, rfl, fun _ _ _ _ _ => rfl⟩

/-- The position of a cell. -/
theorem index_divMod {i : Nat} (h : i < W * H) :
    ∃ r < H, ∃ c < W, i = r * W + c := by
  have hW : 0 < W := by
    rcases Nat.eq_zero_or_pos W with rfl | hpos
    · omega
    · exact hpos
  refine ⟨i / W, Nat.div_lt_of_lt_mul h, i % W, Nat.mod_lt i hW, ?_⟩
  rw [Nat.mul_comm, Nat.div_add_mod]

/-- An index computed from a row and a column before the end is before the end of the buffer. -/
theorem termCharIndex_lt {row col : Int} (hr : row < H) (hc : col < W) :
    termCharIndex W row col < W * H := by
  have hrow : (row + 1) * (W : Int) ≤ H * W := Int.mul_le_mul_of_nonneg_right (by omega) (by omega)
  rw [Int.add_mul, Int.one_mul, Int.mul_comm (H : Int)] at hrow
  unfold termCharIndex
  omega

/-- `scr_draw_char` for all arguments: nothing, the cell with the index computed, or an access
    before the buffer. -/
theorem run_scrDrawChar (s : Screen W H) (row col ch color : Int) :
    (scrDrawChar row col ch color).run s =
      if row ≥ H ∨ col ≥ W then some ((), s)
      else if 0 ≤ termCharIndex W row col then
        some ((), s.put (termCharIndex W row col).toNat
          ⟨BitVec.ofInt 8 ch, BitVec.ofInt 8 color⟩)
      else none := by
  unfold scrDrawChar
  by_cases hoff : row ≥ H ∨ col ≥ W
  · rw [if_pos hoff, if_pos hoff]
    rfl
  rw [if_neg hoff, if_neg hoff]
  have hr : row < H := by omega
  have hc : col < W := by omega
  have hend := termCharIndex_lt hr hc
  generalize termCharIndex W row col = index at hend
  by_cases hneg : 0 ≤ index
  · rw [if_pos hneg]
    obtain ⟨i, rfl⟩ := Int.eq_ofNat_of_zero_le hneg
    have hi : i < W * H := by
      rwa [← Int.natCast_mul, Int.ofNat_lt] at hend
    have hens : Ensures
        (fun _ t => t = s.put i ⟨BitVec.ofInt 8 ch, BitVec.ofInt 8 color⟩)
        (do
          Prog.write fun s : Screen W H => s.modifyCell i fun c =>
            { c with ccCode := BitVec.ofInt 8 ch }
          Prog.write fun s => s.modifyCell i fun c => { c with ccColor := BitVec.ofInt 8 color })
        s := by
      simp only [ensures_bind, ensures_write, Screen.modifyCell_eq _ hi, Option.some.injEq,
        exists_eq_left', Screen.put_put, Screen.at_put hi, if_true]
    obtain ⟨_, _, hrun, rfl⟩ := hens.run
    exact hrun
  · rw [if_neg hneg]
    have hnone : ∀ f, s.modifyCell index f = none := by
      intro f
      exact dif_neg fun hin => hneg hin.1
    rw [run_bind, run_write, hnone]
    rfl

/-- The cell written is the one addressed, if neither row nor column is negative; otherwise it is
another one. -/
theorem Screen.sameBut_put_iff {row col : Int} {i : Nat} (hr : row < H) (hc : col < W)
    (hi : i < W * H) (hidx : termCharIndex W row col = i) (cell : ConsChar) :
    s.SameBut row col (s.put i cell) ↔ (0 ≤ row ∧ 0 ≤ col) ∨ s.at i = cell := by
  constructor
  · intro hbut
    by_cases hpos : 0 ≤ row ∧ 0 ≤ col
    · exact Or.inl hpos
    · obtain ⟨r, hrH, c, hcW, rfl⟩ := index_divMod hi
      have hother : ¬ ((r : Int) = row ∧ (c : Int) = col) := by omega
      have hcell := hbut.cells r hrH c hcW hother
      rw [Screen.at_put hi, if_pos rfl] at hcell
      exact Or.inr hcell.symm
  · intro hcond
    refine ⟨rfl, rfl, ?_⟩
    intro r hrH c hcW hother
    rw [Screen.at_put hi]
    split
    · rename_i hhit
      rcases hcond with ⟨hrow, hcol⟩ | hcell
      · -- row-major indices on the screen are of one position only
        exfalso
        apply hother
        obtain ⟨r', rfl⟩ := Int.eq_ofNat_of_zero_le hrow
        obtain ⟨c', rfl⟩ := Int.eq_ofNat_of_zero_le hcol
        have haddr : ((r' * W + c' : Nat) : Int) = i := by
          rw [← hidx, termCharIndex, Int.natCast_add, Int.natCast_mul]
        obtain ⟨rfl, rfl⟩ := (index_inj hcW (show c' < W by omega)).1
          (show r * W + c = r' * W + c' by omega)
        exact ⟨rfl, rfl⟩
      · rw [hhit, hcell]
    · rfl

/-- `draw_char` is `scr_draw_char`. -/
theorem run_drawChar (s : Screen W H) (row col ch color : Int) :
    ((Op.drawChar row col ch color).prog clear).run s =
      ((scrDrawChar row col ch color).run s).map fun r => (⟨0, []⟩, r.2) := by
  show (scrDrawChar row col ch color >>= fun _ => (pure ⟨0, []⟩ : ScrProg W H Reply)).run s = _
  rw [run_bind]
  cases (scrDrawChar row col ch color).run s with
  | none => rfl
  | some r => rfl

/-- **When `draw_char` is confined to the cell it addresses.**  It changes nothing else exactly if
row or column are past the end, or neither is negative, or the other cell that the index hits looks
like that already. -/
theorem draw_char_confined_iff (clear : Int) (s : Screen W H) (row col ch color : Int) :
    (∃ t, ((Op.drawChar row col ch color).prog clear).run s = some (⟨0, []⟩, t) ∧
      s.SameBut row col t) ↔
      row ≥ H ∨ col ≥ W ∨ (0 ≤ row ∧ 0 ≤ col) ∨
        s.cell? (termCharIndex W row col) = some ⟨BitVec.ofInt 8 ch, BitVec.ofInt 8 color⟩ := by
  rw [run_drawChar, run_scrDrawChar]
  by_cases hoff : row ≥ H ∨ col ≥ W
  · rw [if_pos hoff]
    refine iff_of_true ⟨s, rfl, Screen.SameBut.refl s row col⟩ ?_
    omega
  have hr : row < H := by omega
  have hc : col < W := by omega
  have hend := termCharIndex_lt hr hc
  rw [if_neg hoff, or_iff_right (show ¬ row ≥ H by omega),
    or_iff_right (show ¬ col ≥ W by omega)]
  by_cases hneg : 0 ≤ termCharIndex W row col
  · obtain ⟨i, hidx⟩ := Int.eq_ofNat_of_zero_le hneg
    have hi : i < W * H := by
      rwa [hidx, ← Int.natCast_mul, Int.ofNat_lt] at hend
    rw [if_pos hneg, hidx, Int.toNat_natCast, s.cell?_eq hi, Option.some_inj,
      ← Screen.sameBut_put_iff hr hc hi hidx]
    constructor
    · rintro ⟨_, heq, hbut⟩
      obtain ⟨-, rfl⟩ := Prod.mk.inj (Option.some.inj heq)
      exact hbut
    · intro hbut
      exact ⟨_, rfl, hbut⟩
  · rw [if_neg hneg]
    constructor
    · rintro ⟨_, heq, -⟩
      cases heq
    · rintro (⟨hrow, hcol⟩ | hcell)
      · exfalso
        apply hneg
        exact Int.add_nonneg (Int.mul_nonneg hrow (Int.natCast_nonneg W)) hcol
      · rw [Screen.cell?, dif_neg fun hin => hneg hin.1] at hcell
        cases hcell

/-- `draw_char(1, -1, 'A', 7)` draws in the last column of row 0. -/
theorem column_minus_1_not_confined :
    ¬ ∃ t, ((Op.drawChar 1 (-1) 65 7).prog 0).run
        (initScreen (fun _ => default) 7 : Screen 80 25) = some (⟨0, []⟩, t) ∧
      (initScreen (fun _ => default) 7 : Screen 80 25).SameBut 1 (-1) t := by
  rintro ⟨t, hrun, hbut⟩
  obtain ⟨-, rfl⟩ := Prod.mk.inj (Option.some.inj hrun)
  exact absurd (hbut.cells 0 (by decide) 79 (by decide) (by decide)) (by decide)

end Timix.Console
