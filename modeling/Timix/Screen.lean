import Mathlib.Data.BitVec
import Timix.Lib.Prog

/-!
# Screens (`drivers/text_console.c`)

A `cons_screen_t` of `W` columns and `H` rows and the `scr_` functions on it, each a program that
makes one access to the screen at a time.  `console.h` and `video_defines.h` are not part of the
repository: `W`, `H` and the colour `clear` (`CONSOLE_CLEAR_COLOR`) are arbitrary.

An access outside `cons_buf` is not allowed (`none`); so is a `memcpy` of negative length.
`memcpy` copies the cells in ascending order.
-/

set_option autoImplicit false

namespace Timix.Console

def CURSOR_STATE_VISIBLE : Int := 1
def CURSOR_STATE_HIDDEN : Int := 0

/-- `struct console_char`. -/
structure ConsChar where
  ccCode : BitVec 8
  ccColor : BitVec 8
  deriving DecidableEq, Repr, Inhabited

/-- `struct console_screen`, without its locks. -/
@[ext] structure Screen (W H : Nat) where
  consBuf : Fin (W * H) → ConsChar
  consCurX : Int
  consCurY : Int
  consCurState : Int
  consCurColor : Int
  deriving DecidableEq

variable {W H : Nat}

/-- `cons_buf[index]`. -/
def Screen.cell? (s : Screen W H) (index : Int) : Option ConsChar :=
  if h : 0 ≤ index ∧ index.toNat < W * H then some (s.consBuf ⟨index.toNat, h.2⟩) else none

/-- Change `cons_buf[index]`. -/
def Screen.modifyCell (s : Screen W H) (index : Int) (f : ConsChar → ConsChar) :
    Option (Screen W H) :=
  if h : 0 ≤ index ∧ index.toNat < W * H then
    some { s with consBuf :=
      Function.update s.consBuf ⟨index.toNat, h.2⟩ (f (s.consBuf ⟨index.toNat, h.2⟩)) }
  else none

/-- `TERM_CHAR_INDEX`. -/
def termCharIndex (W : Nat) (row col : Int) : Int := row * W + col

/-- A function of the driver on a screen. -/
abbrev ScrProg (W H : Nat) (α : Type) := Prog (Screen W H) α

def getX : ScrProg W H Int := .read Screen.consCurX
def getY : ScrProg W H Int := .read Screen.consCurY
def getState : ScrProg W H Int := .read Screen.consCurState
def getColor : ScrProg W H Int := .read Screen.consCurColor
def setX (x : Int) : ScrProg W H Unit := .modify fun s => { s with consCurX := x }
def setY (y : Int) : ScrProg W H Unit := .modify fun s => { s with consCurY := y }
def setState (v : Int) : ScrProg W H Unit := .modify fun s => { s with consCurState := v }
def setColor (color : Int) : ScrProg W H Unit := .modify fun s => { s with consCurColor := color }

/-- An access that is never allowed. -/
def fault : ScrProg W H Unit := .write fun _ => none

/-- `scr_draw_char`. -/
def scrDrawChar (row col ch color : Int) : ScrProg W H Unit := do
  if row ≥ H ∨ col ≥ W then
    return
  let index := termCharIndex W row col
  .write fun s => s.modifyCell index fun c => { c with ccCode := BitVec.ofInt 8 ch }
  .write fun s => s.modifyCell index fun c => { c with ccColor := BitVec.ofInt 8 color }

/-- `memcpy` inside `cons_buf`: `len` cells from `start` on to the front. -/
def memcpyFront (start len : Int) : ScrProg W H Unit := do
  if len < 0 then
    fault
  .loop len.toNat 0 fun i =>
    .write fun s => (s.cell? (start + i)).bind fun c => s.modifyCell i fun _ => c

def SPACE : Int := 32

/-- `scrollback`. -/
def scrollback (clear n : Int) : ScrProg W H Unit := do
  memcpyFront (n * W) ((H - n) * W)
  .loop (H - (H - n)).toNat (H - n) fun row =>
    .loop W 0 fun col => scrDrawChar row col SPACE clear
  let y ← getY
  setY (y - n)

/-- `check_cursor`. -/
def checkCursor (clear : Int) : ScrProg W H Unit := do
  let x ← getX
  if x ≥ W then
    setX 0
    let y ← getY
    setY (y + 1)
  let x ← getX
  if x < 0 then
    let y ← getY
    if y > 0 then
      setY (y - 1)
      setX (W - 1)
    else
      setX 0
  let x ← getX
  let y ← getY
  let state ← getState
  if ¬ (y = H ∧ state = CURSOR_STATE_HIDDEN ∧ x = 0) ∧ y ≥ H then
    let n := (y - H) + 1
    scrollback clear n

/-- `scr_putbyte`. -/
def scrPutbyte (clear : Int) (c : BitVec 8) : ScrProg W H Int := do
  if c = 10 then -- '\n'
    setX 0
    let y ← getY
    setY (y + 1)
  else if c = 13 then -- '\r'
    setX 0
  else if c = 8 then -- '\b'
    let x ← getX
    setX (x - 1)
  else
    let row ← getY
    let col ← getX
    let color ← getColor
    scrDrawChar row col c.toInt color
    let x ← getX
    setX (x + 1)
    let x ← getX
    if x ≥ W then
      setX 0
      let y ← getY
      setY (y + 1)
  checkCursor clear
  let row ← getY
  let col ← getX
  let color ← getColor
  scrDrawChar row col SPACE color
  return c.toInt

/-- `scr_putbytes`. -/
def scrPutbytes (clear : Int) : List (BitVec 8) → ScrProg W H Unit
  | [] => return
  | c :: str => do
    let _ ← scrPutbyte clear c
    scrPutbytes clear str

/-- `scr_clear_console`. -/
def scrClearConsole (clear : Int) : ScrProg W H Unit :=
  .loop H 0 fun row => .loop W 0 fun col => scrDrawChar row col SPACE clear

/-- `scr_set_term_color`. -/
def scrSetTermColor (color : Int) : ScrProg W H Int := do
  setColor color
  return 0

/-- `scr_get_term_color`: `*color`. -/
def scrGetTermColor : ScrProg W H Int := getColor

/-- `scr_set_cursor`. -/
def scrSetCursor (row col : Int) : ScrProg W H Int := do
  if row < 0 ∨ col < 0 then
    return -1
  if row ≥ H ∨ col ≥ W then
    return -1
  setX col
  setY row
  return 0

/-- `scr_get_cursor`: `*row` and `*col`. -/
def scrGetCursor : ScrProg W H (Int × Int) := do
  let state ← getState
  let y ← getY
  if state ≠ CURSOR_STATE_VISIBLE ∧ y ≥ W then
    return (y + 1, 0)
  else
    let x ← getX
    return (y, x)

/-- `scr_hide_cursor`. -/
def scrHideCursor : ScrProg W H Unit := setState CURSOR_STATE_HIDDEN

/-- `scr_show_cursor`. -/
def scrShowCursor : ScrProg W H Unit := setState CURSOR_STATE_VISIBLE

/-- `scr_get_char`. -/
def scrGetChar (row col : Int) : ScrProg W H (BitVec 8) := do
  if row < 0 ∨ col < 0 ∨ row ≥ H ∨ col ≥ H then
    return 0
  let index := termCharIndex W row col
  match ← Prog.read fun s => s.cell? index with
  | some c => return c.ccCode
  | none =>
    fault
    return 0

/-! ## Cells -/

/-- The cell with a given index. -/
def Screen.at (s : Screen W H) (i : Nat) : ConsChar :=
  if h : i < W * H then s.consBuf ⟨i, h⟩ else default

def Screen.put (s : Screen W H) (i : Nat) (c : ConsChar) : Screen W H :=
  { s with consBuf := fun k => if k.val = i then c else s.consBuf k }

theorem Screen.at_put {s : Screen W H} {i : Nat} (h : i < W * H) (c : ConsChar) (j : Nat) :
    (s.put i c).at j = if j = i then c else s.at j := by
  unfold Screen.at Screen.put
  by_cases hj : j = i
  · subst hj
    simp [h]
  · simp [hj]

theorem Screen.cell?_eq (s : Screen W H) {i : Nat} (h : i < W * H) :
    s.cell? (i : Int) = some (s.at i) := by
  simp [Screen.cell?, Screen.at, h]

theorem Screen.modifyCell_eq (s : Screen W H) {i : Nat} (h : i < W * H)
    (f : ConsChar → ConsChar) : s.modifyCell (i : Int) f = some (s.put i (f (s.at i))) := by
  simp only [Screen.modifyCell, Screen.put, Screen.at, h, Int.toNat_natCast, and_true, dif_pos,
    Int.natCast_nonneg, Option.some.injEq]
  congr 1
  funext k
  by_cases hk : k.val = i
  · subst hk
    simp
  · rw [if_neg hk, Function.update_of_ne]
    intro he
    exact hk (by rw [he])

theorem Screen.put_put (s : Screen W H) (i : Nat) (c d : ConsChar) :
    (s.put i c).put i d = s.put i d := by
  unfold Screen.put
  congr 1
  funext k
  by_cases hk : k.val = i
  · simp [hk]
  · simp [hk]

/-- Row-major indices of positions on the screen are indices of cells. -/
theorem index_lt {row col : Nat} (hr : row < H) (hc : col < W) : row * W + col < W * H := by
  calc row * W + col < row * W + W := by omega
    _ = (row + 1) * W := by rw [Nat.succ_mul]
    _ ≤ H * W := Nat.mul_le_mul_right W hr
    _ = W * H := Nat.mul_comm H W

/-- and different ones for different positions. -/
theorem index_inj {r r' c c' : Nat} (hc : c < W) (hc' : c' < W) :
    r * W + c = r' * W + c' ↔ r = r' ∧ c = c' := by
  constructor
  · intro h
    have hr : r = r' := by
      have h1 : (r * W + c) / W = r := by
        rw [Nat.mul_comm, Nat.mul_add_div (by omega), Nat.div_eq_of_lt hc, Nat.add_zero]
      have h2 : (r' * W + c') / W = r' := by
        rw [Nat.mul_comm, Nat.mul_add_div (by omega), Nat.div_eq_of_lt hc', Nat.add_zero]
      rw [← h1, ← h2, h]
    subst hr
    exact ⟨rfl, by omega⟩
  · rintro ⟨rfl, rfl⟩
    rfl

open Prog

variable {Q : Unit → Screen W H → Prop} {s : Screen W H}

/-- `scr_draw_char` on the screen. -/
theorem ensures_scrDrawChar {row col : Nat} (hr : row < H) (hc : col < W) (ch color : Int) :
    Ensures Q (scrDrawChar (row : Int) col ch color) s ↔
      Q () (s.put (row * W + col) ⟨BitVec.ofInt 8 ch, BitVec.ofInt 8 color⟩) := by
  have hidx := index_lt hr hc
  have hon : ¬ ((row : Int) ≥ H ∨ (col : Int) ≥ W) := by omega
  have hcast : termCharIndex W row col = ((row * W + col : Nat) : Int) := by
    simp [termCharIndex]
  unfold scrDrawChar
  simp only [if_neg hon, hcast, ensures_bind, ensures_write, Screen.modifyCell_eq _ hidx,
    Option.some.injEq, exists_eq_left', Screen.put_put, Screen.at_put hidx, if_true]

/-- `scr_draw_char` outside. -/
theorem ensures_scrDrawChar_off {row col : Int} (h : row ≥ H ∨ col ≥ W) (ch color : Int) :
    Ensures Q (scrDrawChar row col ch color) s ↔ Q () s := by
  unfold scrDrawChar
  rw [if_pos h, ensures_pure]

/-! ## Loops over the buffer -/

/-- The first `cnt` cells replaced by those from `start` on. -/
def Screen.shift (s : Screen W H) (start cnt : Nat) : Screen W H :=
  { s with consBuf := fun k => if k.val < cnt then s.at (start + k.val) else s.consBuf k }

/-- The cells from `lo` up to `hi` set to `c`. -/
def Screen.fill (s : Screen W H) (lo hi : Nat) (c : ConsChar) : Screen W H :=
  { s with consBuf := fun k => if lo ≤ k.val ∧ k.val < hi then c else s.consBuf k }

theorem Screen.at_shift {s : Screen W H} (start cnt : Nat) {i : Nat} (hi : i < W * H) :
    (s.shift start cnt).at i = if i < cnt then s.at (start + i) else s.at i := by
  unfold Screen.shift
  rw [Screen.at, dif_pos hi]
  dsimp only
  by_cases h : i < cnt
  · rw [if_pos h, if_pos h]
  · rw [if_neg h, if_neg h, Screen.at, dif_pos hi]

theorem Screen.at_fill {s : Screen W H} (lo hi : Nat) (c : ConsChar) {i : Nat} (h : i < W * H) :
    (s.fill lo hi c).at i = if lo ≤ i ∧ i < hi then c else s.at i := by
  simp [Screen.fill, Screen.at, h]

theorem Screen.shift_zero (s : Screen W H) (start : Nat) : s.shift start 0 = s := by
  simp [Screen.shift]

theorem Screen.fill_self (s : Screen W H) (lo : Nat) (c : ConsChar) : s.fill lo lo c = s := by
  unfold Screen.fill
  have hno : ∀ k : Fin (W * H), ¬ (lo ≤ k.val ∧ k.val < lo) := fun k => by omega
  simp only [hno, if_false]

theorem Screen.shift_put (s : Screen W H) (start k : Nat) :
    (s.shift start k).put k (s.at (start + k)) = s.shift start (k + 1) := by
  unfold Screen.put Screen.shift
  congr 1
  funext i
  dsimp only
  rcases Nat.lt_trichotomy i.val k with h | h | h
  · rw [if_neg (by omega), if_pos h, if_pos (by omega)]
  · rw [if_pos h, if_pos (by omega), h]
  · rw [if_neg (by omega), if_neg (by omega), if_neg (by omega)]

theorem Screen.fill_put (s : Screen W H) {lo i : Nat} (h : lo ≤ i) (c : ConsChar) :
    (s.fill lo i c).put i c = s.fill lo (i + 1) c := by
  unfold Screen.put Screen.fill
  congr 1
  funext k
  dsimp only
  rcases Nat.lt_trichotomy k.val i with hk | hk | hk
  · rw [if_neg (by omega)]
    by_cases hlo : lo ≤ k.val
    · rw [if_pos ⟨hlo, hk⟩, if_pos ⟨hlo, by omega⟩]
    · rw [if_neg (by omega), if_neg (by omega)]
  · rw [if_pos hk, if_pos (by omega)]
  · rw [if_neg (by omega), if_neg (by omega), if_neg (by omega)]

/-- `memcpy` to the front: as it copies in ascending order, a cell is read before it is
overwritten. -/
theorem ensures_memcpyFront {start len : Nat} (h : start + len ≤ W * H) :
    Ensures (fun _ t => t = s.shift start len) (memcpyFront (start : Int) (len : Int)) s := by
  unfold memcpyFront
  rw [if_neg (by omega), Int.toNat_natCast]
  apply ensures_loop (fun k t => t = s.shift start k) (s.shift_zero start).symm
  rintro k hk _ rfl
  rw [Int.zero_add, ensures_write]
  refine ⟨_, ?_, s.shift_put start k⟩
  have hread : (start : Int) + k = ((start + k : Nat) : Int) := by omega
  rw [hread, Screen.cell?_eq _ (by omega), Option.bind_some, Screen.modifyCell_eq _ (by omega),
    Screen.at_shift _ _ (by omega), if_neg (by omega)]

/-- `(' ', color)`. -/
def blank (color : Int) : ConsChar := ⟨BitVec.ofInt 8 SPACE, BitVec.ofInt 8 color⟩

/-- The loops that clear rows. -/
theorem ensures_clearRows {lo n : Nat} (h : lo + n ≤ H) (clear : Int) :
    Ensures (fun _ t => t = s.fill (lo * W) ((lo + n) * W) (blank clear))
      (.loop n (lo : Int) fun row => .loop W 0 fun col => scrDrawChar row col SPACE clear) s := by
  apply ensures_loop (fun k t => t = s.fill (lo * W) ((lo + k) * W) (blank clear))
  · rw [Nat.add_zero, Screen.fill_self]
  rintro k hk _ rfl
  have hrow : (lo : Int) + k = ((lo + k : Nat) : Int) := by omega
  rw [hrow, show (lo + (k + 1)) * W = (lo + k) * W + W by rw [← Nat.add_assoc, Nat.succ_mul]]
  apply ensures_loop (fun c t => t = s.fill (lo * W) ((lo + k) * W + c) (blank clear))
  · rfl
  rintro c hc _ rfl
  rw [Int.zero_add, ensures_scrDrawChar (by omega) hc]
  exact s.fill_put (Nat.le_trans (Nat.mul_le_mul_right W (by omega)) (Nat.le_add_right ..)) _

/-- The buffer moved up by `n` rows, with `n` blank rows at the bottom. -/
def Screen.scrolled (s : Screen W H) (clear : Int) (n : Nat) : Screen W H :=
  { (s.shift (n * W) ((H - n) * W)).fill ((H - n) * W) (H * W) (blank clear) with
    consCurY := s.consCurY - n }

/-- `scrollback` by at most the height of the screen. -/
theorem ensures_scrollback {n : Nat} (hn : n ≤ H) (clear : Int) :
    Ensures (fun _ t => t = s.scrolled clear n) (scrollback clear (n : Int)) s := by
  have hlen : ((H : Int) - n) * W = ((H - n : Nat) * W : Nat) := by
    rw [Int.natCast_mul, Int.natCast_sub hn]
  have hstart : (n : Int) * W = ((n * W : Nat) : Int) := by rw [Int.natCast_mul]
  have hrows : ((H : Int) - (H - n)).toNat = n := by omega
  have hlo : (H : Int) - n = ((H - n : Nat) : Int) := by omega
  have htotal : n * W + (H - n) * W ≤ W * H := by
    rw [← Nat.add_mul, Nat.add_sub_cancel' hn, Nat.mul_comm]
  unfold scrollback
  rw [ensures_bind, hlen, hstart, hrows, hlo]
  apply (ensures_memcpyFront htotal).of_eq
  rw [ensures_bind]
  apply (ensures_clearRows (by omega) clear).of_eq
  rw [Nat.sub_add_cancel hn]
  simp only [getY, setY, ensures_bind, ensures_read, ensures_modify]
  rfl

/-- The cells after `scrollback`. -/
theorem Screen.at_scrolled (s : Screen W H) (clear : Int) {n r c : Nat} (hr : r < H) (hc : c < W) :
    (s.scrolled clear n).at (r * W + c) =
      if r < H - n then s.at ((r + n) * W + c) else blank clear := by
  have hi := index_lt hr hc
  have hat : (s.scrolled clear n).at (r * W + c) =
      ((s.shift (n * W) ((H - n) * W)).fill ((H - n) * W) (H * W) (blank clear)).at
        (r * W + c) := rfl
  rw [hat, Screen.at_fill _ _ _ hi, Screen.at_shift _ _ hi]
  by_cases h : r < H - n
  · have hlt : r * W + c < (H - n) * W := by
      calc r * W + c < (r + 1) * W := by rw [Nat.succ_mul]; omega
        _ ≤ (H - n) * W := Nat.mul_le_mul_right W h
    rw [if_neg (by omega), if_pos hlt, if_pos h]
    congr 1
    rw [Nat.add_mul]
    omega
  · have hge : (H - n) * W ≤ r * W + c :=
      Nat.le_trans (Nat.mul_le_mul_right W (by omega)) (Nat.le_add_right ..)
    have hle : r * W + c < H * W := by rwa [Nat.mul_comm H W]
    rw [if_pos ⟨hge, hle⟩, if_neg h]

end Timix.Console
