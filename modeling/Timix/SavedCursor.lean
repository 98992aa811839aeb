import Timix.VisibleCursor

/-!
# `get_cursor` and `set_cursor`

What `get_cursor` reports can be given to `set_cursor` to put the cursor back, and reports what
`set_cursor` was given, except below the last row and where `get_cursor` takes
`CONSOLE_WIDTH` for `CONSOLE_HEIGHT`.

* `Screen.reported` — what `get_cursor` reports.
* `run_getCursor`, `run_setCursor` — the two operations.
* `Screen.restored_iff` — getting and setting, for any screen.

Principal result: `saved_cursor_restored_iff`.
-/

set_option autoImplicit false

namespace Timix.Console

open Prog

variable {W H N : Nat} {s t : Screen W H} {clear : Int}

/-- The position reported. -/
def Screen.reported (s : Screen W H) : Int × Int :=
  if s.consCurState ≠ CURSOR_STATE_VISIBLE ∧ s.consCurY ≥ W then (s.consCurY + 1, 0)
  else (s.consCurY, s.consCurX)

theorem run_getCursor (s : Screen W H) :
    (Op.getCursor.prog clear).run s = some (⟨0, [s.reported.1, s.reported.2]⟩, s) := by
  show ((if s.consCurState ≠ CURSOR_STATE_VISIBLE ∧ s.consCurY ≥ W then
      (pure (s.consCurY + 1, 0) : ScrProg W H (Int × Int))
    else getX >>= fun x => pure (s.consCurY, x)) >>= fun pos =>
      (pure ⟨0, [pos.1, pos.2]⟩ : ScrProg W H Reply)).run s = _
  unfold Screen.reported
  split
  · rfl
  · rfl

theorem run_setCursor (s : Screen W H) (row col : Int) :
    ((Op.setCursor row col).prog clear).run s =
      if 0 ≤ row ∧ row < H ∧ 0 ≤ col ∧ col < W then
        some (⟨0, []⟩, { s with consCurX := col, consCurY := row })
      else some (⟨-1, []⟩, s) := by
  show (scrSetCursor row col >>= fun ret => (pure ⟨ret, []⟩ : ScrProg W H Reply)).run s = _
  unfold scrSetCursor
  by_cases hneg : row < 0 ∨ col < 0
  · rw [if_pos hneg, if_neg (by omega)]
    rfl
  by_cases hoff : row ≥ H ∨ col ≥ W
  · rw [if_neg hneg, if_pos hoff, if_neg (by omega)]
    rfl
  · rw [if_neg hneg, if_neg hoff, if_pos (by omega)]
    rfl

/-- `set_cursor` takes back what `get_cursor` reports, and the cursor is where it was. -/
def Screen.Restores (clear : Int) (s : Screen W H) : Prop :=
  ∃ row col t, (Op.getCursor.prog clear).run s = some (⟨0, [row, col]⟩, s) ∧
    ((Op.setCursor row col).prog clear).run s = some (⟨0, []⟩, t) ∧
    t.consCurX = s.consCurX ∧ t.consCurY = s.consCurY

/-- **Getting and setting.** -/
theorem Screen.restored_iff (s : Screen W H) :
    s.Restores clear ↔ (0 ≤ s.consCurX ∧ s.consCurX < W ∧ 0 ≤ s.consCurY ∧ s.consCurY < H) ∧
      (s.consCurState = CURSOR_STATE_VISIBLE ∨ s.consCurY < W) := by
  unfold Screen.Restores
  simp only [run_getCursor, run_setCursor]
  constructor
  · rintro ⟨row, col, t, hget, hset, hx, hy⟩
    simp only [Option.some.injEq, Prod.mk.injEq, Reply.mk.injEq, List.cons.injEq, true_and,
      and_true] at hget
    obtain ⟨hrow, hcol⟩ := hget
    split at hset
    · rename_i hon
      obtain ⟨-, rfl⟩ := Prod.mk.inj (Option.some.inj hset)
      replace hx : col = s.consCurX := hx
      replace hy : row = s.consCurY := hy
      refine ⟨by omega, ?_⟩
      by_contra hspecial
      rw [Screen.reported, if_pos (by omega)] at hrow
      replace hrow : s.consCurY + 1 = row := hrow
      omega
    · cases hset
  · rintro ⟨hon, hplain⟩
    have hreported : s.reported = (s.consCurY, s.consCurX) := by
      rw [Screen.reported, if_neg (by omega)]
    refine ⟨s.consCurY, s.consCurX, s, by rw [hreported], ?_, rfl, rfl⟩
    rw [if_pos (by omega)]

/-- **Setting and getting**, where the position is accepted. -/
theorem Screen.reported_after_set {row col : Int}
    (h : ((Op.setCursor row col).prog clear).run s = some (⟨0, []⟩, t)) :
    t.reported = (row, col) ↔ s.consCurState = CURSOR_STATE_VISIBLE ∨ row < W := by
  rw [run_setCursor] at h
  split at h
  · obtain ⟨-, rfl⟩ := Prod.mk.inj (Option.some.inj h)
    unfold Screen.reported
    dsimp only
    split
    · rename_i hspecial
      simp only [Prod.mk.injEq]
      omega
    · exact iff_of_true rfl (by omega)
  · cases h

/-- **When saving and restoring the cursor is the identity.**  In every state of the driver, on
every screen: what `get_cursor` reports is accepted by `set_cursor` and puts the cursor where it
was exactly if the cursor is not below the last row and, unless it is visible, in a row below
`CONSOLE_WIDTH`; and after a `set_cursor` that was accepted `get_cursor` reports that position
exactly if the cursor is visible or the row is below `CONSOLE_WIDTH`. -/
theorem saved_cursor_restored_iff (hW : 0 < W) (hH : 0 < H) (clear white : Int)
    (video : Fin (W * H) → ConsChar) (bufs : Fin N → Fin (W * H) → ConsChar) (idx : Fin N)
    (calls : List (DriverCall N)) {d : Driver W H N}
    (h : Lts.exec (Driver.step clear) (.init video bufs white idx) calls = some d) (n : Fin N) :
    ((d.logical n).Restores clear ↔ (d.logical n).consCurY ≠ H ∧
      ((d.logical n).consCurState = CURSOR_STATE_VISIBLE ∨ (d.logical n).consCurY < W)) ∧
    ∀ row col t,
      ((Op.setCursor row col).prog clear).run (d.logical n) = some (⟨0, []⟩, t) →
      ((Op.getCursor.prog clear).run t = some (⟨0, [row, col]⟩, t) ↔
        (d.logical n).consCurState = CURSOR_STATE_VISIBLE ∨ row < W) := by
  obtain ⟨hx, hxW, hy, hyH, -⟩ := (Driver.regular_of_exec hW hH h n).bounded
  constructor
  · rw [Screen.restored_iff]
    omega
  · intro row col t hset
    rw [← Screen.reported_after_set hset, run_getCursor]
    simp [Prod.ext_iff]

/-- With the cursor hidden in the last row of 80 x 25 it is, -/
theorem row_24_restored : ∃ d, Lts.exec (Driver.step 0)
    (Driver.init (fun _ => default) (fun _ _ => default) 15 0 : Driver 80 25 1)
      (.op 0 .hideCursor :: List.replicate 24 (.op 0 (.putbyte 10))) = some d ∧
    (d.logical 0).Restores 0 ∧
    ∃ t, ((Op.setCursor 3 7).prog 0).run (d.logical 0) = some (⟨0, []⟩, t) ∧
      (Op.getCursor.prog 0).run t = some (⟨0, [3, 7]⟩, t) := by
  have h := saved_cursor_restored_iff (W := 80) (H := 25) (N := 1) (by decide) (by decide) 0 15
    (fun _ => default) (fun _ _ => default) 0
    (.op 0 .hideCursor :: List.replicate 24 (.op 0 (.putbyte 10))) rfl 0
  exact ⟨_, rfl, h.1.2 (by decide), _, rfl, (h.2 3 7 _ rfl).2 (by decide)⟩

/-- and after one more newline `set_cursor` refuses what `get_cursor` reports. -/
theorem row_25_refused : ∃ d, Lts.exec (Driver.step 0)
    (Driver.init (fun _ => default) (fun _ _ => default) 15 0 : Driver 80 25 1)
      (.op 0 .hideCursor :: List.replicate 25 (.op 0 (.putbyte 10))) = some d ∧
    (Op.getCursor.prog 0).run (d.logical 0) = some (⟨0, [25, 0]⟩, d.logical 0) ∧
    ((Op.setCursor 25 0).prog 0).run (d.logical 0) = some (⟨-1, []⟩, d.logical 0) :=
  ⟨_, rfl, rfl, rfl⟩

end Timix.Console
