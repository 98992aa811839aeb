import Timix.Driver

/-!
# Where the cursor is

Between two calls of the driver the cursor of a screen is on the screen, or, if it is hidden, in
column 0 of the row below.  The one exception: `scr_show_cursor` does not call `check_cursor`, so
a hidden cursor below the last row becomes a visible one there.

* `Screen.CursorOk` — what should hold of every screen.
* `Op.keeps_cursor` — the operations that do not touch the cursor.
* `Op.run_cursor` — what every operation does to `CursorOk`.
* `Driver.regular_of_exec` — hidden or not, every cursor is on the screen or in column 0 of the row
  below.

Principal result: `visible_cursor_on_screen_iff`.
-/

set_option autoImplicit false

namespace Timix.Console

open Prog

variable {W H N : Nat}

/-- A visible cursor is on the screen, a hidden one there or in column 0 of the row below. -/
structure Screen.CursorOk (s : Screen W H) : Prop where
  visible : s.consCurState = CURSOR_STATE_VISIBLE →
    0 ≤ s.consCurX ∧ s.consCurX < W ∧ 0 ≤ s.consCurY ∧ s.consCurY < H
  hidden : s.consCurState = CURSOR_STATE_HIDDEN →
    (0 ≤ s.consCurX ∧ s.consCurX < W ∧ 0 ≤ s.consCurY ∧ s.consCurY < H) ∨
      (s.consCurX = 0 ∧ s.consCurY = H)

/-- The cursor is in bounds and has one of the two states. -/
structure Screen.Regular (s : Screen W H) : Prop where
  bounded : s.Bounded
  state : s.consCurState = CURSOR_STATE_VISIBLE ∨ s.consCurState = CURSOR_STATE_HIDDEN

/-- Position and state of the cursor. -/
def Screen.cursor (s : Screen W H) : Int × Int × Int := (s.consCurX, s.consCurY, s.consCurState)

variable {s t : Screen W H} {clear : Int} {op : Op}

/-- What is left to check. -/
theorem Screen.Regular.cursorOk_iff (h : s.Regular) :
    s.CursorOk ↔ (s.consCurState = CURSOR_STATE_VISIBLE → s.consCurY ≠ H) := by
  obtain ⟨⟨hx, hxW, hy, hyH, hbelow⟩, -⟩ := h
  constructor
  · intro hok hvis
    have := hok.visible hvis
    omega
  · intro hne
    constructor
    · intro hvis
      have := hne hvis
      omega
    · intro _
      omega

/-- The same cursor. -/
theorem Screen.Regular.same (h : s.Regular) (ht : t.cursor = s.cursor) :
    t.Regular ∧ (t.CursorOk ↔ s.CursorOk) := by
  obtain ⟨hx, hyst⟩ := Prod.mk.inj ht
  obtain ⟨hy, hst⟩ := Prod.mk.inj hyst
  have hreg : t.Regular := ⟨h.bounded.cells hx hy, by rw [hst]; exact h.state⟩
  refine ⟨hreg, ?_⟩
  rw [hreg.cursorOk_iff, h.cursorOk_iff, hst, hy]

/-! ## Operations that leave the cursor alone -/

theorem Screen.modifyCell_cursor {i : Int} {f : ConsChar → ConsChar}
    (h : s.modifyCell i f = some t) : t.cursor = s.cursor := by
  unfold Screen.modifyCell at h
  split at h
  · cases h
    rfl
  · cases h

theorem keeps_scrDrawChar (row col ch color : Int) :
    Keeps Screen.cursor (scrDrawChar row col ch color : ScrProg W H Unit) := by
  unfold scrDrawChar
  apply keeps_ite
  · trivial
  · exact ⟨fun _ _ => Screen.modifyCell_cursor, fun _ _ => Screen.modifyCell_cursor, trivial⟩

theorem keeps_scrGetChar (row col : Int) :
    Keeps Screen.cursor (scrGetChar row col : ScrProg W H (BitVec 8)) := by
  unfold scrGetChar
  apply keeps_ite
  · trivial
  · refine keeps_bind (fun _ => trivial) ?_
    rintro (_ | c)
    · refine ⟨?_, trivial⟩
      intro _ _ h
      cases h
    · trivial

/-- The operations that do not print, place, hide or show the cursor. -/
def Op.plain : Op → Bool
  | .putbyte _ | .putbytes _ | .setCursor .. | .hideCursor | .showCursor => false
  | _ => true

theorem Op.keeps_cursor (h : op.plain = true) :
    Keeps Screen.cursor (op.prog clear : ScrProg W H Reply) := by
  cases op with
  | drawChar row col ch color => exact keeps_bind (keeps_scrDrawChar ..) fun _ => trivial
  | clearConsole =>
    refine keeps_bind ?_ fun _ => trivial
    apply keeps_loop
    intro row
    apply keeps_loop
    intro col
    exact keeps_scrDrawChar ..
  | consSetTermColor color => exact ⟨fun _ _ h => by cases h; rfl, trivial⟩
  | getTermColor => exact fun _ => trivial
  | getCursor =>
    refine keeps_bind ?_ fun _ => trivial
    intro s u
    apply keeps_ite
    · trivial
    · exact fun _ => trivial
  | getChar row col => exact keeps_bind (keeps_scrGetChar ..) fun _ => trivial
  | _ => cases h

/-! ## Printing -/

/-- `check_cursor` leaves a cursor that is not hidden above the row below the screen. -/
theorem Screen.settled_visible (hvis : s.consCurState ≠ CURSOR_STATE_HIDDEN) :
    (s.settled clear).consCurY ≠ H := by
  unfold Screen.settled
  split
  · show s.consCurY - ((s.consCurY - H + 1).toNat : Int) ≠ H
    omega
  · rename_i hstay
    intro hy
    apply hstay
    refine ⟨?_, by omega⟩
    rintro ⟨-, hhid, -⟩
    exact hvis hhid

/-- **Printing** puts a visible cursor on the screen. -/
theorem Screen.Regular.printed (h : s.Regular) (clear : Int) (hW : 0 < W) (hH : 0 < H)
    (c : BitVec 8) :
    (s.printed clear c).Regular ∧ (s.printed clear c).CursorOk := by
  have hreg : (s.printed clear c).Regular :=
    ⟨h.bounded.printed clear hW hH c, by rw [s.printed_state]; exact h.state⟩
  refine ⟨hreg, hreg.cursorOk_iff.2 ?_⟩
  intro hvis
  rw [s.printed_state] at hvis
  unfold Screen.printed Screen.blanked
  rw [Screen.draw_y]
  apply Screen.settled_visible
  have hstate : (s.act c).wrapLeft.consCurState = s.consCurState := by
    have := (s.act c).wrapLeft_settings.trans (s.act_settings c)
    exact congrArg Prod.fst this
  rw [hstate, hvis]
  decide

theorem Screen.Regular.putbytes (hW : 0 < W) (hH : 0 < H) {str : List (BitVec 8)} {r : Unit}
    (h : s.Regular) (hrun : (scrPutbytes clear str).run s = some (r, t)) :
    t.Regular ∧ (s.CursorOk → t.CursorOk) := by
  induction str generalizing s with
  | nil =>
    obtain ⟨-, rfl⟩ := Prod.mk.inj (Option.some.inj hrun)
    exact ⟨h, id⟩
  | cons c str ih =>
    obtain ⟨_, u, hbyte, hrest⟩ := run_bind_some.1 hrun
    obtain rfl := h.bounded.run_putbyte hW hH hbyte
    obtain ⟨hreg, hok⟩ := h.printed clear hW hH c
    obtain ⟨hreg', hok'⟩ := ih hreg hrest
    exact ⟨hreg', fun _ => hok' hok⟩

/-- **One operation**: only `show_cursor` can make a visible cursor that is off the screen, and it
does exactly if the cursor is below the last row. -/
theorem Op.run_cursor (hW : 0 < W) (hH : 0 < H) (h : s.Regular) {r : Reply}
    (hrun : (op.prog clear).run s = some (r, t)) :
    t.Regular ∧ (s.CursorOk → (t.CursorOk ↔ (op = .showCursor → s.consCurY ≠ H))) := by
  have hkept : t.Regular ∧ (s.CursorOk → t.CursorOk) → op ≠ .showCursor →
      t.Regular ∧ (s.CursorOk → (t.CursorOk ↔ (op = .showCursor → s.consCurY ≠ H))) := by
    rintro ⟨hreg, hok⟩ hne
    exact ⟨hreg, fun hs => iff_of_true (hok hs) fun he => absurd he hne⟩
  by_cases hplain : op.plain = true
  · obtain ⟨hreg, hiff⟩ := h.same ((Op.keeps_cursor hplain).run hrun)
    apply hkept ⟨hreg, hiff.2⟩
    rintro rfl
    cases hplain
  cases op with
  | putbyte c =>
    obtain ⟨_, u, hbyte, hret⟩ := run_bind_some.1 hrun
    obtain ⟨-, rfl⟩ := Prod.mk.inj (Option.some.inj hret)
    obtain rfl := h.bounded.run_putbyte hW hH hbyte
    obtain ⟨hreg, hok⟩ := h.printed clear hW hH c
    exact hkept ⟨hreg, fun _ => hok⟩ (by simp)
  | putbytes str =>
    obtain ⟨_, u, hbytes, hret⟩ := run_bind_some.1 hrun
    obtain ⟨-, rfl⟩ := Prod.mk.inj (Option.some.inj hret)
    exact hkept (h.putbytes hW hH hbytes) (by simp)
  | setCursor row col =>
    have hprog : Ensures (fun _ u => u.Regular ∧ (s.CursorOk → u.CursorOk))
        ((Op.setCursor row col).prog clear) s := by
      unfold Op.prog scrSetCursor
      simp only [setX, setY, ensures_bind, ensures_ite, ensures_pure, ensures_modify]
      split
      · exact ⟨h, id⟩
      split
      · exact ⟨h, id⟩
      · have hreg : Screen.Regular { s with consCurX := col, consCurY := row } := by
          refine ⟨⟨?_, ?_, ?_, ?_, ?_⟩, h.state⟩
          all_goals dsimp only; omega
        refine ⟨hreg, fun _ => hreg.cursorOk_iff.2 ?_⟩
        intro _
        dsimp only
        omega
    exact hkept (hprog.of_run hrun) (by simp)
  | hideCursor =>
    obtain ⟨-, rfl⟩ := Prod.mk.inj (Option.some.inj hrun)
    have hreg : Screen.Regular { s with consCurState := CURSOR_STATE_HIDDEN } :=
      ⟨h.bounded.cells rfl rfl, Or.inr rfl⟩
    refine hkept ⟨hreg, fun _ => hreg.cursorOk_iff.2 ?_⟩ (by simp)
    intro hvis
    cases hvis
  | showCursor =>
    obtain ⟨-, rfl⟩ := Prod.mk.inj (Option.some.inj hrun)
    have hreg : Screen.Regular { s with consCurState := CURSOR_STATE_VISIBLE } :=
      ⟨h.bounded.cells rfl rfl, Or.inl rfl⟩
    refine ⟨hreg, fun _ => ?_⟩
    rw [hreg.cursorOk_iff]
    exact ⟨fun hne _ => hne rfl, fun hne _ => hne rfl⟩
  | _ => exact absurd rfl hplain

/-! ## Runs of the driver -/

theorem initScreen_regular (hW : 0 < W) (hH : 0 < H) (buf : Fin (W * H) → ConsChar) (white : Int) :
    (initScreen buf white).Regular ∧ (initScreen buf white).CursorOk := by
  have hreg : (initScreen buf white).Regular := by
    refine ⟨⟨?_, ?_, ?_, ?_, ?_⟩, Or.inl rfl⟩
    all_goals simp only [initScreen]; omega
  refine ⟨hreg, hreg.cursorOk_iff.2 ?_⟩
  intro _
  show (0 : Int) ≠ H
  omega

/-- The cursor of every screen is in bounds. -/
def Driver.Regular (d : Driver W H N) : Prop := ∀ k, (d.logical k).Regular

/-- The property, for all screens. -/
def Driver.CursorsOk (d : Driver W H N) : Prop := ∀ k, (d.logical k).CursorOk

/-- After `console_init`. -/
theorem Driver.init_cursors (hW : 0 < W) (hH : 0 < H) (video : Fin (W * H) → ConsChar)
    (bufs : Fin N → Fin (W * H) → ConsChar) (white : Int) (idx : Fin N) :
    (init video bufs white idx).Regular ∧ (init video bufs white idx).CursorsOk := by
  have hinit : ∀ k, ((init video bufs white idx).logical k).Regular ∧
      ((init video bufs white idx).logical k).CursorOk := by
    intro k
    unfold logical
    split
    · exact initScreen_regular hW hH video white
    · exact initScreen_regular hW hH (bufs k) white
  exact ⟨fun k => (hinit k).1, fun k => (hinit k).2⟩

/-- `show_cursor` is not called with the cursor of the screen below its last row. -/
def ShowsOnScreen (d : Driver W H N) : DriverCall N → Prop
  | .op n .showCursor => (d.logical n).consCurY ≠ H
  | _ => True

instance (d : Driver W H N) : ∀ c : DriverCall N, Decidable (ShowsOnScreen d c)
  | .op n .showCursor => inferInstanceAs (Decidable ((d.logical n).consCurY ≠ H))
  | .op _ (.putbyte _) | .op _ (.putbytes _) | .op _ (.drawChar ..) | .op _ .clearConsole
  | .op _ (.consSetTermColor _) | .op _ .getTermColor | .op _ (.setCursor ..) | .op _ .getCursor
  | .op _ .hideCursor | .op _ (.getChar ..) | .setScreen _ => isTrue trivial

/-- **One call.** -/
theorem Driver.Regular.step (hW : 0 < W) (hH : 0 < H) {d d' : Driver W H N} {c : DriverCall N}
    (h : d.Regular) (hs : d.step clear c = some d') :
    d'.Regular ∧ (d.CursorsOk → (d'.CursorsOk ↔ ShowsOnScreen d c)) := by
  rcases Driver.step_logical hs with ⟨hinv, hsame⟩ | ⟨n, op, r, scr, rfl, hrun, hupd⟩
  · unfold Driver.Regular Driver.CursorsOk
    rw [hsame]
    refine ⟨h, fun hok => iff_of_true hok ?_⟩
    unfold ShowsOnScreen
    split
    · cases hinv _ _ rfl
    · trivial
  · obtain ⟨hreg, hiff⟩ := Op.run_cursor hW hH (h n) hrun
    unfold Driver.Regular Driver.CursorsOk
    rw [hupd]
    constructor
    · intro k
      by_cases hk : k = n
      · rw [hk, Function.update_self]
        exact hreg
      · rw [Function.update_of_ne hk]
        exact h k
    · intro hok
      have hshows : ShowsOnScreen d (.op n op) ↔
          (op = .showCursor → (d.logical n).consCurY ≠ H) := by
        cases op <;> simp [ShowsOnScreen]
      rw [hshows, ← hiff (hok n)]
      constructor
      · intro hall
        have := hall n
        rwa [Function.update_self] at this
      · intro hn k
        by_cases hk : k = n
        · rw [hk, Function.update_self]
          exact hn
        · rw [Function.update_of_ne hk]
          exact hok k

/-- **Every reachable state.** -/
theorem Driver.regular_of_exec (hW : 0 < W) (hH : 0 < H) {clear white : Int}
    {video : Fin (W * H) → ConsChar} {bufs : Fin N → Fin (W * H) → ConsChar} {idx : Fin N}
    {calls : List (DriverCall N)} {d : Driver W H N}
    (h : Lts.exec (Driver.step clear) (.init video bufs white idx) calls = some d) : d.Regular :=
  Lts.exec_inv (fun _ _ _ hi hs => (Driver.Regular.step hW hH hi hs).1)
    (Driver.init_cursors hW hH video bufs white idx).1 h

/-- **When a visible cursor is always on the screen.**  In every sequence of calls after
`console_init`, on any screens and with any switches, every screen keeps its cursor where it
belongs exactly if `show_cursor` is never called with the cursor below the last row. -/
theorem visible_cursor_on_screen_iff (hW : 0 < W) (hH : 0 < H) (clear white : Int)
    (video : Fin (W * H) → ConsChar) (bufs : Fin N → Fin (W * H) → ConsChar) (idx : Fin N)
    (calls : List (DriverCall N)) {d : Driver W H N}
    (h : Lts.exec (Driver.step clear) (.init video bufs white idx) calls = some d) :
    (∀ pre post d', calls = pre ++ post →
        Lts.exec (Driver.step clear) (.init video bufs white idx) pre = some d' →
        d'.CursorsOk) ↔
      Lts.Along (Driver.step clear) ShowsOnScreen (.init video bufs white idx) calls := by
  obtain ⟨hreg, hok⟩ := Driver.init_cursors hW hH video bufs white idx
  refine Lts.always_iff ?_ hreg hok h
  intro _ _ _ hi hoki hs
  obtain ⟨hi', hiff⟩ := hi.step hW hH hs
  exact ⟨hi', hiff hoki⟩

/-- `hide_cursor`, a newline for every row, something more, and `show_cursor`. -/
def fillAndShow (n : Fin N) (H : Nat) (more : List (DriverCall N)) : List (DriverCall N) :=
  [.op n .hideCursor] ++ List.replicate H (.op n (.putbyte 10)) ++ more ++ [.op n .showCursor]

/-- With one more character, which scrolls, the cursor is on the screen when it is shown; -/
theorem fill_scroll_show_ok : ∃ d, Lts.exec (Driver.step 0)
    (Driver.init (fun _ => default) (fun _ _ => default) 15 0 : Driver 2 2 2)
      (fillAndShow 0 2 [.op 0 (.putbyte 65), .setScreen 1]) = some d ∧ d.CursorsOk :=
  ⟨_, rfl, (visible_cursor_on_screen_iff (by decide) (by decide) 0 15 (fun _ => default)
    (fun _ _ => default) 0 (fillAndShow 0 2 [.op 0 (.putbyte 65), .setScreen 1]) rfl).2 (by decide)
      _ [] _ (List.append_nil _).symm rfl⟩

/-- without it, it is below. -/
theorem fill_show_below : ∃ d, Lts.exec (Driver.step 0)
    (Driver.init (fun _ => default) (fun _ _ => default) 15 0 : Driver 80 25 1)
      (fillAndShow 0 25 []) = some d ∧ ¬ d.CursorsOk := by
  refine ⟨_, rfl, ?_⟩
  intro h
  obtain ⟨-, -, -, hy⟩ := (h 0).visible rfl
  exact absurd hy (by decide)

end Timix.Console
