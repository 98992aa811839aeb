import Timix.VisibleCursor

/-!
# Printing inside the buffer

What holds inside an operation, access by access (`Prog.Safe`): no cell outside `cons_buf` is
read or written, and the cursor stays inside `W` and `H + 1`, up to the column -1 of a backspace.

* `checkCursorWith`, `scrPutbyteWith`, `Op.progWith` — the functions that lead to `scrollback`, for
  any function in its place; with `scrollback` they are the functions themselves.
* `checkedScrollback` — `scrollback` that refuses other arguments than it should get.
* `ScrollsOk` — what both do, and all that the proofs use.

Principal result: `printing_stays_in_buffer`.
-/

set_option autoImplicit false

namespace Timix.Console

open Prog

variable {W H : Nat}

/-! ## Calls of `scrollback` -/

section With

variable (scroll : Int → ScrProg W H Unit)

/-- `check_cursor`. -/
def checkCursorWith : ScrProg W H Unit := do
  let x ← getX
  if x ≥ W then
    setX 0
    let y ← getY
    setY (y + 1)
  let x ← getX
  if x < 0 then
    let y ← getY
    if y > 0 then
      setY (y - 1)
      setX (W - 1)
    else
      setX 0
  let x ← getX
  let y ← getY
  let state ← getState
  if ¬ (y = H ∧ state = CURSOR_STATE_HIDDEN ∧ x = 0) ∧ y ≥ H then
    let n := (y - H) + 1
    scroll n

/-- `scr_putbyte`. -/
def scrPutbyteWith (c : BitVec 8) : ScrProg W H Int := do
  if c = 10 then -- '\n'
    setX 0
    let y ← getY
    setY (y + 1)
  else if c = 13 then -- '\r'
    setX 0
  else if c = 8 then -- '\b'
    let x ← getX
    setX (x - 1)
  else
    let row ← getY
    let col ← getX
    let color ← getColor
    scrDrawChar row col c.toInt color
    let x ← getX
    setX (x + 1)
    let x ← getX
    if x ≥ W then
      setX 0
      let y ← getY
      setY (y + 1)
  checkCursorWith scroll
  let row ← getY
  let col ← getX
  let color ← getColor
  scrDrawChar row col SPACE color
  return c.toInt

/-- `scr_putbytes`. -/
def scrPutbytesWith : List (BitVec 8) → ScrProg W H Unit
  | [] => return
  | c :: str => do
    let _ ← scrPutbyteWith scroll c
    scrPutbytesWith str

/-- An operation. -/
def Op.progWith (clear : Int) : Op → ScrProg W H Reply
  | .putbyte c => do
    let _ ← scrPutbyteWith scroll c
    return ⟨c.toInt, []⟩
  | .putbytes str => do
    scrPutbytesWith scroll str
    return ⟨0, []⟩
  | op => op.prog clear

end With

theorem scrPutbyteWith_scrollback (clear : Int) (c : BitVec 8) :
    (scrPutbyteWith (scrollback clear) c : ScrProg W H Int) = scrPutbyte clear c :=
  rfl

theorem scrPutbytesWith_scrollback (clear : Int) (str : List (BitVec 8)) :
    (scrPutbytesWith (scrollback clear) str : ScrProg W H Unit) = scrPutbytes clear str := by
  induction str with
  | nil => rfl
  | cons c str ih => rw [scrPutbytesWith, scrPutbytes, ih, scrPutbyteWith_scrollback]

/-- With `scrollback` nothing changes. -/
theorem Op.progWith_scrollback (clear : Int) (op : Op) :
    (op.progWith (scrollback clear) clear : ScrProg W H Reply) = op.prog clear := by
  cases op with
  | putbytes str => rw [Op.progWith, Op.prog, scrPutbytesWith_scrollback]
  | _ => rfl

/-- `scrollback` for one row or two, with a `memcpy` of a length that is not negative and a source
    inside the buffer; any other call is not allowed. -/
def checkedScrollback (clear n : Int) : ScrProg W H Unit := do
  if (n = 1 ∨ n = 2) ∧ 0 ≤ ((H : Int) - n) * W ∧ n * W + (H - n) * W ≤ W * H then
    scrollback clear n
  else
    fault

/-! ## The cursor inside an operation -/

/-- A backspace is printed. -/
def Op.Backspaces (op : Op) : Prop :=
  op = .putbyte 8 ∨ ∃ str, op = .putbytes str ∧ 8 ∈ str

/-- The cursor at any point inside an operation. -/
structure Screen.Inside (back : Prop) (s : Screen W H) : Prop where
  x_ge : 0 ≤ s.consCurX ∨ (s.consCurX = -1 ∧ back)
  x_le : s.consCurX ≤ W
  y_nonneg : 0 ≤ s.consCurY
  y_le : s.consCurY ≤ H + 1

variable {s t : Screen W H} {clear : Int} {back : Prop} {op : Op}
  {scroll : Int → ScrProg W H Unit}

theorem Screen.Inside.of_cursor (ht : t.cursor = s.cursor) (h : s.Inside back) :
    t.Inside back := by
  obtain ⟨hx, hyst⟩ := Prod.mk.inj ht
  obtain ⟨hy, -⟩ := Prod.mk.inj hyst
  obtain ⟨hge, hle, hy0, hyH⟩ := h
  constructor
  · rwa [hx]
  · rwa [hx]
  · rwa [hy]
  · rwa [hy]

theorem Screen.Bounded.inside (h : s.Bounded) : s.Inside back :=
  ⟨Or.inl h.x_nonneg, Int.le_of_lt h.x_lt, h.y_nonneg, Int.le_add_one h.y_le⟩

/-- The column is set to one of the screen, or behind it. -/
theorem Screen.Inside.setX (h : s.Inside back) {x : Int} (hx : 0 ≤ x) (hxW : x ≤ W) :
    Screen.Inside back { s with consCurX := x } :=
  ⟨Or.inl hx, hxW, h.y_nonneg, h.y_le⟩

theorem Screen.Inside.setY (h : s.Inside back) {y : Int} (hy : 0 ≤ y) (hyH : y ≤ H + 1) :
    Screen.Inside back { s with consCurY := y } :=
  ⟨h.x_ge, h.x_le, hy, hyH⟩

/-- An operation that does not move the cursor. -/
theorem throughout_of_keeps {α : Type} {Q : α → Screen W H → Prop} {p : ScrProg W H α}
    (hp : Keeps Screen.cursor p) (h : s.Inside back) (hQ : Ensures Q p s) :
    Throughout (Screen.Inside back) Q p s :=
  (hp.throughout (fun _ _ ht hI => hI.of_cursor ht) h hQ).mono fun _ _ h => h.2

/-- A read. -/
theorem Screen.Inside.read {α : Type} {Q : α → Screen W H → Prop} {g : Screen W H → Int}
    {f : Int → ScrProg W H α} (h : s.Inside back)
    (hf : Throughout (Screen.Inside back) Q (f (g s)) s) :
    Throughout (Screen.Inside back) Q (Prog.read g >>= f) s :=
  throughout_bind (throughout_read h hf)

/-- An assignment. -/
theorem Screen.Inside.assign {α : Type} {Q : α → Screen W H → Prop}
    {g : Screen W H → Screen W H} {f : Unit → ScrProg W H α} (h : s.Inside back)
    (ht : (g s).Inside back) (hf : Throughout (Screen.Inside back) Q (f ()) (g s)) :
    Throughout (Screen.Inside back) Q (Prog.modify g >>= f) s :=
  throughout_bind (throughout_modify h ht hf)

/-! ## `scr_putbyte` -/

/-- The column may be `W` for one access. -/
theorem Screen.Inside.throughout_advance (h : s.Inside back) (hx : 0 ≤ s.consCurX)
    (hxW : s.consCurX < W) (hyH : s.consCurY ≤ H) :
    Throughout (Screen.Inside back) (fun _ t => t = s.advance) advanceCursor s := by
  have hy := h.y_nonneg
  have hnext : Screen.Inside back { s with consCurX := s.consCurX + 1 } :=
    h.setX (by omega) (by omega)
  unfold advanceCursor Screen.advance
  apply h.read
  apply h.assign hnext
  apply hnext.read
  dsimp only
  split
  · have hzero : Screen.Inside back { s with consCurX := 0 } := h.setX (by omega) (by omega)
    apply hnext.assign hzero
    apply hzero.read
    exact throughout_modify hzero (hzero.setY (by dsimp only; omega) (by dsimp only; omega)) rfl
  · exact ⟨hnext, rfl⟩

/-- Up to `check_cursor`. -/
theorem Screen.Bounded.throughout_byteAct (h : s.Bounded) {c : BitVec 8}
    (hback : c = 8 → back) :
    Throughout (Screen.Inside back) (fun _ t => t = s.act c) (byteAct c) s := by
  have hin : s.Inside back := h.inside
  obtain ⟨hx, hxW, hy, hyH, hbelow⟩ := h
  unfold byteAct Screen.act
  by_cases hnl : c = 10
  · rw [if_pos hnl, if_pos hnl]
    have h0 : Screen.Inside back { s with consCurX := 0 } := hin.setX (by omega) (by omega)
    apply hin.assign h0
    apply h0.read
    exact throughout_modify h0 (h0.setY (by dsimp only; omega) (by dsimp only; omega)) rfl
  rw [if_neg hnl, if_neg hnl]
  by_cases hcr : c = 13
  · rw [if_pos hcr, if_pos hcr]
    exact throughout_modify hin (hin.setX (by omega) (by omega)) rfl
  rw [if_neg hcr, if_neg hcr]
  by_cases hbs : c = 8
  · rw [if_pos hbs, if_pos hbs]
    apply hin.read
    refine throughout_modify hin ⟨?_, ?_, hy, hin.y_le⟩ rfl
    · show 0 ≤ s.consCurX - 1 ∨ (s.consCurX - 1 = -1 ∧ back)
      by_cases hzero : s.consCurX = 0
      · exact Or.inr ⟨by omega, hback hbs⟩
      · exact Or.inl (by omega)
    · show s.consCurX - 1 ≤ W
      omega
  · rw [if_neg hbs, if_neg hbs]
    apply hin.read
    apply hin.read
    apply hin.read
    apply throughout_bind
    apply (throughout_of_keeps (keeps_scrDrawChar ..) hin
      (ensures_draw hy hx c.toInt s.consCurColor)).of_eq
    have hdraw : (s.draw s.consCurY s.consCurX c.toInt s.consCurColor).Inside back := by
      apply hin.of_cursor
      simp [Screen.cursor]
    exact hdraw.throughout_advance (by simpa using hx) (by simpa using hxW) (by simpa using hyH)

/-- The first part of `check_cursor`. -/
theorem Screen.Moved.throughout_wrapCheck (h : s.Moved) (hin : s.Inside back) (hW : 0 < W) :
    Throughout (Screen.Inside back) (fun _ t => t = s.wrapLeft) wrapCheck s := by
  obtain ⟨hx, hxW, hy, hyH, hleft⟩ := h
  have hon : ¬ s.consCurX ≥ W := by omega
  unfold wrapCheck Screen.wrapLeft
  apply hin.read
  simp only [if_neg hon]
  apply hin.read
  split
  · apply hin.read
    split
    · have hup : Screen.Inside back { s with consCurY := s.consCurY - 1 } :=
        hin.setY (by omega) (by omega)
      apply hin.assign hup
      exact throughout_modify hup (hup.setX (by omega) (by omega)) rfl
    · exact throughout_modify hin (hin.setX (by omega) (by omega)) rfl
  · exact ⟨hin, rfl⟩

/-- What is asked of the function in the place of `scrollback`. -/
def ScrollsOk (clear : Int) (scroll : Int → ScrProg W H Unit) : Prop :=
  ∀ (n : Nat) (s : Screen W H) (back : Prop), n = 1 ∨ n = 2 → s.Inside back → n ≤ s.consCurY →
    Throughout (Screen.Inside back) (fun _ t => t = s.scrolled clear n) (scroll n) s

theorem keeps_memcpyFront (start len : Int) :
    Keeps Screen.cursor (memcpyFront start len : ScrProg W H Unit) := by
  have hcopy : ∀ i : Int, Keeps Screen.cursor (Prog.write fun s : Screen W H =>
      (s.cell? (start + i)).bind fun c => s.modifyCell i fun _ => c) := by
    intro i
    refine ⟨?_, trivial⟩
    intro u t ht
    obtain ⟨c, -, hmod⟩ := Option.bind_eq_some_iff.1 ht
    exact Screen.modifyCell_cursor hmod
  unfold memcpyFront
  split
  · refine keeps_bind ⟨?_, trivial⟩ fun _ => keeps_loop hcopy _ _
    intro _ _ h
    cases h
  · exact keeps_loop hcopy _ _

/-- `scrollback` moves the cursor once, at its end. -/
theorem scrollsOk_scrollback (hH : 2 ≤ H) :
    ScrollsOk (W := W) (H := H) clear (scrollback clear) := by
  intro n s back hn hin hy
  have hens := ensures_scrollback (s := s) (n := n) (by omega) clear
  unfold scrollback at hens ⊢
  rw [← bind_assoc] at hens ⊢
  apply throughout_bind
  have hkeeps : Keeps Screen.cursor (memcpyFront ((n : Int) * W) (((H : Int) - n) * W) >>= fun _ =>
      Prog.loop ((H : Int) - (H - n)).toNat (H - n) fun row =>
        Prog.loop W 0 fun col => (scrDrawChar row col SPACE clear : ScrProg W H Unit)) :=
    keeps_bind (keeps_memcpyFront ..) fun _ =>
      keeps_loop (fun _ => keeps_loop (fun _ => keeps_scrDrawChar ..) _ _) _ _
  apply (hkeeps.throughout (fun _ _ ht hI => hI.of_cursor ht) hin (ensures_bind.1 hens)).mono
  rintro _ t ⟨hcur, ht⟩
  have htin : t.Inside back := hin.of_cursor hcur
  have hty : t.consCurY = s.consCurY := congrArg (fun c => c.2.1) hcur
  have hle := hin.y_le
  apply htin.read
  refine throughout_modify htin (htin.setY ?_ ?_) ?_
  · omega
  · omega
  · simpa [getY, setY, ensures_bind, ensures_read, ensures_modify] using ht

theorem scrollsOk_checked (hH : 2 ≤ H) :
    ScrollsOk (W := W) (H := H) clear (checkedScrollback clear) := by
  intro n s back hn hin hy
  have hok : ((n : Int) = 1 ∨ (n : Int) = 2) ∧ 0 ≤ ((H : Int) - n) * W ∧
      (n : Int) * W + (H - n) * W ≤ W * H := by
    refine ⟨by omega, Int.mul_nonneg (by omega) (by omega), ?_⟩
    rw [← Int.add_mul, Int.mul_comm (W : Int)]
    exact Int.le_of_eq (by congr 1; omega)
  unfold checkedScrollback
  rw [if_pos hok]
  exact scrollsOk_scrollback hH n s back hn hin hy

/-- The last part of `check_cursor`. -/
def scrollCheckWith (scroll : Int → ScrProg W H Unit) : ScrProg W H Unit := do
  let x ← getX
  let y ← getY
  let state ← getState
  if ¬ (y = H ∧ state = CURSOR_STATE_HIDDEN ∧ x = 0) ∧ y ≥ H then
    let n := (y - H) + 1
    scroll n

theorem checkCursorWith_wrap (scroll : Int → ScrProg W H Unit) :
    checkCursorWith scroll = wrapCheck >>= fun _ => scrollCheckWith scroll := by
  simp only [checkCursorWith, wrapCheck, scrollCheckWith, ite_bind, bind_assoc, pure_bind]

/-- What `scr_putbyte` does after the byte itself. -/
def afterByteWith (scroll : Int → ScrProg W H Unit) (c : BitVec 8) : ScrProg W H Int := do
  checkCursorWith scroll
  let row ← getY
  let col ← getX
  let color ← getColor
  scrDrawChar row col SPACE color
  return c.toInt

theorem scrPutbyteWith_act (scroll : Int → ScrProg W H Unit) (c : BitVec 8) :
    scrPutbyteWith scroll c = byteAct c >>= fun _ => afterByteWith scroll c := by
  simp only [scrPutbyteWith, byteAct, advanceCursor, afterByteWith, ite_bind, bind_assoc,
    pure_bind]

/-- **`scrollback` is called for one row or two.** -/
theorem Screen.Inside.throughout_scrollCheck (h : s.Inside back) (hH : 2 ≤ H)
    (hscroll : ScrollsOk clear scroll) :
    Throughout (Screen.Inside back) (fun _ t => t = s.settled clear) (scrollCheckWith scroll)
      s := by
  have hyH := h.y_le
  unfold scrollCheckWith Screen.settled
  apply h.read
  apply h.read
  apply h.read
  split
  · rename_i hbelow
    obtain ⟨n, hn⟩ := Int.eq_ofNat_of_zero_le (a := s.consCurY - H + 1) (by omega)
    have hrows := hscroll n s back (by omega) h (by omega)
    simpa only [hn, Int.toNat_natCast] using hrows
  · exact ⟨h, rfl⟩

/-- What follows the byte itself. -/
theorem Screen.Moved.throughout_afterByte (h : s.Moved) (hin : s.Inside back) (hW : 0 < W)
    (hH : 2 ≤ H) (hscroll : ScrollsOk clear scroll) (c : BitVec 8) :
    Throughout (Screen.Inside back) (fun _ t => t = (s.wrapLeft.settled clear).blanked)
      (afterByteWith scroll c) s := by
  obtain ⟨hx, hxW, hy, hyH⟩ := h.wrapLeft hW
  have hwrap : s.wrapLeft.Inside back := ⟨Or.inl hx, Int.le_of_lt hxW, hy, hyH⟩
  have hb := Screen.settled_bounded clear hx hxW hy hyH (by omega)
  unfold afterByteWith
  apply throughout_bind
  rw [checkCursorWith_wrap]
  apply throughout_bind
  apply (h.throughout_wrapCheck hin hW).of_eq
  apply (hwrap.throughout_scrollCheck hH hscroll).of_eq
  apply hb.inside.read
  apply hb.inside.read
  apply hb.inside.read
  apply throughout_bind
  apply (throughout_of_keeps (keeps_scrDrawChar ..) hb.inside
    (ensures_draw hb.y_nonneg hb.x_nonneg SPACE _)).of_eq
  refine ⟨hb.inside.of_cursor ?_, rfl⟩
  simp [Screen.cursor]

/-- **One byte.** -/
theorem Screen.Bounded.throughout_putbyte (h : s.Bounded) (hW : 0 < W) (hH : 2 ≤ H)
    (hscroll : ScrollsOk clear scroll) {c : BitVec 8} (hback : c = 8 → back) :
    Throughout (Screen.Inside back) (fun _ t => t = s.printed clear c) (scrPutbyteWith scroll c)
      s := by
  rw [scrPutbyteWith_act]
  apply throughout_bind
  apply (h.throughout_byteAct hback).final.mono
  rintro _ _ ⟨hin, rfl⟩
  exact (h.moved hW c).throughout_afterByte hin hW hH hscroll c

/-- A string. -/
theorem Screen.Bounded.throughout_putbytes (hW : 0 < W) (hH : 2 ≤ H)
    (hscroll : ScrollsOk clear scroll) {str : List (BitVec 8)} (h : s.Bounded)
    (hback : 8 ∈ str → back) :
    Throughout (Screen.Inside back) (fun _ t => t.Bounded) (scrPutbytesWith scroll str) s := by
  induction str generalizing s with
  | nil => exact ⟨h.inside, h⟩
  | cons c str ih =>
    apply throughout_bind
    apply (h.throughout_putbyte hW hH hscroll fun hc => hback (by simp [hc])).mono
    rintro _ _ rfl
    exact ih (h.printed clear hW (by omega) c) fun hmem => hback (List.mem_cons_of_mem c hmem)

/-! ## The operations -/

/-- **One operation**, with `scrollback` or what stands for it. -/
theorem Op.throughout_progWith (hW : 0 < W) (hH : 2 ≤ H) (hscroll : ScrollsOk clear scroll)
    (hop : op.InRange W H) (h : s.Bounded) :
    Throughout (Screen.Inside op.Backspaces) (fun _ t => t.Bounded) (op.progWith scroll clear)
      s := by
  have hin : s.Inside op.Backspaces := h.inside
  by_cases hplain : op.plain = true
  · have hprog : op.progWith scroll clear = op.prog clear := by
      cases op with
      | putbyte c => cases hplain
      | putbytes str => cases hplain
      | _ => rfl
    rw [hprog]
    exact throughout_of_keeps (Op.keeps_cursor hplain) hin (Op.ensures_prog hW hH hop h)
  cases op with
  | putbyte c =>
    apply throughout_bind
    apply (h.throughout_putbyte hW hH hscroll fun hc => Or.inl (by rw [hc])).mono
    rintro _ _ rfl
    have hb := h.printed clear hW (by omega) c
    exact ⟨hb.inside, hb⟩
  | putbytes str =>
    apply throughout_bind
    apply (h.throughout_putbytes hW hH hscroll fun hmem => Or.inr ⟨str, rfl, hmem⟩).mono
    intro _ _ hb
    exact ⟨hb.inside, hb⟩
  | setCursor row col =>
    unfold Op.progWith Op.prog scrSetCursor
    apply throughout_bind
    split
    · exact ⟨hin, hin, h⟩
    split
    · exact ⟨hin, hin, h⟩
    · have hcol := hin.setX (x := col) (by omega) (by omega)
      have hrow := hcol.setY (y := row) (by omega) (by omega)
      have hb : Screen.Bounded { s with consCurX := col, consCurY := row } := by
        constructor
        all_goals dsimp only; omega
      apply hin.assign hcol
      apply hcol.assign hrow
      exact ⟨hrow, hrow, hb⟩
  | hideCursor | showCursor =>
    have hb : ∀ v, Screen.Bounded { s with consCurState := v } := fun _ => h.cells rfl rfl
    exact hin.assign (hb _).inside ⟨(hb _).inside, hb _⟩
  | _ => exact absurd rfl hplain

/-- **Printing never leaves the buffer.**  After any operations on a new screen, inside every
further one: each access is to a cell of the buffer, the cursor is inside its bounds at every
point, and left of the screen only in a backspace; and the same goes if `scrollback` refuses
everything but one row or two, with a `memcpy` inside the buffer. -/
theorem printing_stays_in_buffer (hW : 0 < W) (hH : 2 ≤ H) (clear white : Int)
    (buf : Fin (W * H) → ConsChar) (ops : List Op) (op : Op)
    (hops : ∀ o ∈ ops ++ [op], o.InRange W H) :
    ∃ s, runOps clear ops (initScreen buf white) = some s ∧ s.Inside False ∧
      (op.prog clear).Safe (Screen.Inside op.Backspaces) s ∧
      (op.progWith (checkedScrollback clear) clear).Safe (Screen.Inside op.Backspaces) s := by
  have hkeep : ∀ p ∈ ops.map (Op.prog clear), ∀ s : Screen W H, s.Bounded →
      Ensures (fun _ => Screen.Bounded) p s := by
    intro p hp s hs
    obtain ⟨o, ho, rfl⟩ := List.mem_map.1 hp
    exact Op.ensures_prog hW hH (hops o (List.mem_append_left _ ho)) hs
  have hinit := (initScreen_regular hW (by omega) buf white).1.bounded
  obtain ⟨s, hrun, hs⟩ := replay_ensures hkeep hinit
  have hop : op.InRange W H := hops op (List.mem_append_right _ List.mem_cons_self)
  refine ⟨s, hrun, hs.inside, ?_, ?_⟩
  · rw [← Op.progWith_scrollback]
    exact (Op.throughout_progWith hW hH (scrollsOk_scrollback hH) hop hs).safe
  · exact (Op.throughout_progWith hW hH (scrollsOk_checked hH) hop hs).safe

/-- A hidden cursor below the screen, shown, and a newline: `scrollback` by two rows. -/
theorem show_newline_in_buffer : ∃ s : Screen 2 2,
    runOps 0 [.hideCursor, .putbyte 10, .putbyte 10, .showCursor] (initScreen (fun _ => default) 15)
      = some s ∧ s.Inside False ∧
    ((Op.putbyte 10).prog 0).Safe (Screen.Inside (Op.putbyte 10).Backspaces) s ∧
    ((Op.putbyte 10).progWith (checkedScrollback 0) 0).Safe
      (Screen.Inside (Op.putbyte 10).Backspaces) s :=
  printing_stays_in_buffer (by decide) (by decide) 0 15 (fun _ => default)
    [.hideCursor, .putbyte 10, .putbyte 10, .showCursor] (.putbyte 10) (by simp [Op.InRange])

end Timix.Console
