import Timix.Console
import Timix.Printing

/-!
# Cursor bounds

`Screen.Bounded` holds of the screens between two operations, whether the cursor is visible or
hidden: it is on the screen, or in column 0 of the row below.  With `W ≥ 1` and `H ≥ 2` every
operation keeps it, and makes no access outside the buffer on the way.

* `ensures_putbytes` — printing a string.
* `Op.InRange` — the calls of `draw_char` and `get_char` that stay in the buffer.

Principal result: `Op.ensures_prog`.
-/

set_option autoImplicit false

namespace Timix.Console

open Prog

variable {W H : Nat} {s : Screen W H} {clear : Int}

/-- A string. -/
theorem Screen.Bounded.ensures_putbytes (hW : 0 < W) (hH : 2 ≤ H) :
    ∀ {str : List (BitVec 8)} {s : Screen W H}, s.Bounded →
      Ensures (fun _ t => t.Bounded) (scrPutbytes clear str) s
  | [], _, h => h
  | c :: str, _, h => by
    rw [scrPutbytes, ensures_bind]
    apply (h.ensures_putbyte hW hH c).mono
    rintro _ _ ⟨-, rfl⟩
    exact Screen.Bounded.ensures_putbytes hW hH (h.printed clear hW (by omega) c)

/-! ## The operations -/

/-- `draw_char` is not called with a negative row or column; and, on a screen higher than wide,
    `get_char`, which compares `col` with the height, not with a column between the two. -/
def Op.InRange (W H : Nat) : Op → Prop
  | .drawChar row col _ _ => 0 ≤ row ∧ 0 ≤ col
  | .getChar _ col => col < W ∨ H ≤ col
  | _ => True

/-- **No operation leaves the buffer.** -/
theorem Op.ensures_prog (hW : 0 < W) (hH : 2 ≤ H) {op : Op} (hop : op.InRange W H)
    (h : s.Bounded) : Ensures (fun _ t => t.Bounded) (op.prog clear) s := by
  cases op with
  | putbyte c =>
    unfold Op.prog
    rw [ensures_bind]
    apply (h.ensures_putbyte hW hH c).mono
    rintro _ _ ⟨-, rfl⟩
    exact h.printed clear hW (by omega) c
  | putbytes str =>
    unfold Op.prog
    rw [ensures_bind]
    exact h.ensures_putbytes hW hH
  | drawChar row col ch color =>
    unfold Op.prog
    rw [ensures_bind]
    apply (ensures_draw hop.1 hop.2 ch color).of_eq
    exact h.cells (s.draw_x ..) (s.draw_y ..)
  | clearConsole =>
    unfold Op.prog scrClearConsole
    rw [ensures_bind]
    have hclear : Ensures (fun _ t => t = s.fill (0 * W) ((0 + H) * W) (blank clear))
        (scrClearConsole clear) s := ensures_clearRows (by omega) clear
    apply hclear.of_eq
    exact h.cells rfl rfl
  | consSetTermColor color =>
    unfold Op.prog
    simp only [scrSetTermColor, setColor, ensures_bind, ensures_modify, ensures_pure]
    exact h.cells rfl rfl
  | getTermColor => exact h
  | setCursor row col =>
    unfold Op.prog scrSetCursor
    simp only [setX, setY, ensures_bind, ensures_ite, ensures_pure, ensures_modify]
    split
    · exact h
    split
    · exact h
    · exact ⟨by dsimp only; omega, by dsimp only; omega, by dsimp only; omega,
        by dsimp only; omega, by dsimp only; omega⟩
  | getCursor =>
    unfold Op.prog scrGetCursor
    simp only [getState, getX, getY, ensures_bind, ensures_read, ensures_ite, ensures_pure]
    split <;> exact h
  | hideCursor | showCursor =>
    unfold Op.prog
    simp only [scrHideCursor, scrShowCursor, setState, ensures_bind, ensures_modify, ensures_pure]
    exact h.cells rfl rfl
  | getChar row col =>
    unfold Op.prog scrGetChar
    simp only [ensures_bind, ensures_ite, ensures_pure, ensures_read]
    split
    · exact h
    · obtain ⟨r, rfl⟩ := Int.eq_ofNat_of_zero_le (a := row) (by omega)
      obtain ⟨c, rfl⟩ := Int.eq_ofNat_of_zero_le (a := col) (by omega)
      have hcol : (c : Int) < W ∨ (H : Int) ≤ c := hop
      have hcast : termCharIndex W r c = ((r * W + c : Nat) : Int) := by
        simp [termCharIndex]
      rw [hcast, s.cell?_eq (index_lt (by omega) (by omega))]
      exact h

end Timix.Console
