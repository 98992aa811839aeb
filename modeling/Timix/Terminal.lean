import Timix.Printing

/-!
# Printing with a visible cursor (`scr_putbytes`) and the unbounded terminal

A `Term` has unboundedly many rows of `W` cells and shows `H` of them, from row `top` on.
`Term.putByte` says what one byte does to it, without any buffer.

* `Shows s t` — the screen `s` is the window of `t`, cursor included.
* `Shows.act`, `Tracks.settled`, `Shows.draw` — the parts of `scr_putbyte` against those of
  `Term.putByte`.
* `Shows.printed` — one byte.

Principal result: `scr_putbytes_shows`.
-/

set_option autoImplicit false

namespace Timix.Console

open Prog

/-! ## The terminal -/

/-- `rows r c` is the cell in column `c` of row `r`; `top` is the first row of the window. -/
structure Term where
  rows : Nat → Nat → ConsChar
  row : Nat
  col : Nat
  top : Nat

/-- Write the cell under the cursor. -/
def Term.write (t : Term) (c : ConsChar) : Term :=
  { t with rows := fun r k => if r = t.row ∧ k = t.col then c else t.rows r k }

/-- One cell forward in reading order. -/
def Term.advance (W : Nat) (t : Term) : Term :=
  if t.col + 1 < W then { t with col := t.col + 1 } else { t with row := t.row + 1, col := 0 }

/-- One cell back in reading order, but not above the window. -/
def Term.back (W : Nat) (t : Term) : Term :=
  if 0 < t.col then { t with col := t.col - 1 }
  else if t.top < t.row then { t with row := t.row - 1, col := W - 1 }
  else t

/-- A cursor below the window moves the window down one row; the new row is blank. -/
def Term.follow (H : Nat) (clear : Int) (t : Term) : Term :=
  if t.row < t.top + H then t
  else { t with
    top := t.top + 1
    rows := fun r k => if r = t.row then blank clear else t.rows r k }

/-- What a byte says to do. -/
def Term.act (W : Nat) (color : Int) (c : BitVec 8) (t : Term) : Term :=
  if c = 10 then { t with row := t.row + 1, col := 0 }
  else if c = 13 then { t with col := 0 }
  else if c = 8 then t.back W
  else (t.write ⟨c, BitVec.ofInt 8 color⟩).advance W

/-- One byte: act, follow the cursor, and blank the cell under it. -/
def Term.putByte (W H : Nat) (clear color : Int) (t : Term) (c : BitVec 8) : Term :=
  ((t.act W color c).follow H clear).write (blank color)

def Term.putBytes (W H : Nat) (clear color : Int) (t : Term) (str : List (BitVec 8)) : Term :=
  str.foldl (Term.putByte W H clear color) t

theorem Term.putBytes_append (W H : Nat) (clear color : Int) (t : Term)
    (pre post : List (BitVec 8)) : t.putBytes W H clear color (pre ++ post) =
      (t.putBytes W H clear color pre).putBytes W H clear color post :=
  List.foldl_append

/-! ## The window -/

variable {W H : Nat}

/-- The screen shows rows `top` to `top + H - 1`; the cursor is visible and there, or one row
    below. -/
structure Tracks (s : Screen W H) (t : Term) : Prop where
  visible : s.consCurState = CURSOR_STATE_VISIBLE
  x : s.consCurX = t.col
  col_lt : t.col < W
  y : s.consCurY = t.row - t.top
  top_le : t.top ≤ t.row
  row_le : t.row ≤ t.top + H
  cells : ∀ r < H, ∀ c < W, s.at (r * W + c) = t.rows (t.top + r) c

/-- The screen is the window of the terminal, cursor included. -/
structure Shows (s : Screen W H) (t : Term) : Prop extends Tracks s t where
  row_lt : t.row < t.top + H

/-- The terminal of a screen: the window starts at row 0, and nothing is written below it. -/
def Screen.term (s : Screen W H) : Term where
  rows r c := if r < H then s.at (r * W + c) else default
  row := s.consCurY.toNat
  col := s.consCurX.toNat
  top := 0

theorem shows_term {s : Screen W H} (hvis : s.consCurState = CURSOR_STATE_VISIBLE)
    (hx : 0 ≤ s.consCurX) (hxW : s.consCurX < W) (hy : 0 ≤ s.consCurY) (hyH : s.consCurY < H) :
    Shows s s.term where
  visible := hvis
  x := by simp [Screen.term, hx]
  col_lt := by simp only [Screen.term]; omega
  y := by simp [Screen.term, hy]
  top_le := Nat.zero_le _
  row_le := by simp only [Screen.term]; omega
  row_lt := by simp only [Screen.term]; omega
  cells r hr c _ := by simp [Screen.term, hr]

variable {s : Screen W H} {t : Term} {clear : Int}

/-- The cursor moves, on the screen or to the row below. -/
theorem Tracks.move (h : Tracks s t) (x y : Int) (row col : Nat) (hx : x = col) (hcol : col < W)
    (hy : y = row - t.top) (htop : t.top ≤ row) (hrow : row ≤ t.top + H) :
    Tracks { s with consCurX := x, consCurY := y } { t with row := row, col := col } :=
  ⟨h.visible, hx, hcol, hy, htop, hrow, h.cells⟩

theorem Shows.height_pos (h : Shows s t) : 0 < H := by
  have := h.row_lt
  have := h.top_le
  omega

theorem Shows.width_pos (h : Shows s t) : 0 < W := Nat.lt_of_le_of_lt (Nat.zero_le _) h.col_lt

/-- The cell under a cursor that is on the screen is written. -/
theorem Shows.write (h : Shows s t) (c : ConsChar) :
    Shows (s.put ((t.row - t.top) * W + t.col) c) (t.write c) := by
  obtain ⟨⟨hvis, hx, hcol, hy, htop, hle, hcells⟩, hrow⟩ := h
  refine ⟨⟨hvis, hx, hcol, hy, htop, hle, ?_⟩, hrow⟩
  intro r hr k hk
  rw [Screen.at_put (index_lt (by omega) hcol), hcells r hr k hk]
  simp only [index_inj hk hcol, Term.write]
  have hiff : r = t.row - t.top ↔ t.top + r = t.row := by omega
  simp only [hiff]

/-- `scr_draw_char` at the cursor. -/
theorem Shows.draw (h : Shows s t) (ch color : Int) :
    Shows (s.draw s.consCurY s.consCurX ch color)
      (t.write ⟨BitVec.ofInt 8 ch, BitVec.ofInt 8 color⟩) := by
  have hrow := h.row_lt
  have hcol := h.col_lt
  have htop := h.top_le
  have hx := h.x
  have hy := h.y
  have hon : ¬ (s.consCurY ≥ H ∨ s.consCurX ≥ W) := by omega
  have hr : s.consCurY.toNat = t.row - t.top := by omega
  have hc : s.consCurX.toNat = t.col := by omega
  rw [Screen.draw, if_neg hon, hr, hc]
  exact h.write _

/-! ## One byte -/

/-- After scrolling by one row the screen shows the window one row further down. -/
theorem Tracks.scrolled (h : Tracks s t) (hH : 0 < H) (hrow : t.row = t.top + H) :
    Shows (s.scrolled clear 1) (t.follow H clear) := by
  obtain ⟨hvis, hx, hcol, hy, htop, _, hcells⟩ := h
  have hfollow : t.follow H clear = { t with
      top := t.top + 1
      rows := fun r k => if r = t.row then blank clear else t.rows r k } := by
    rw [Term.follow, if_neg (by omega)]
  rw [hfollow]
  refine ⟨⟨hvis, hx, hcol, ?_, ?_, ?_, ?_⟩, ?_⟩
  · show s.consCurY - (1 : Nat) = (t.row : Int) - (t.top + 1 : Nat)
    omega
  · show t.top + 1 ≤ t.row
    omega
  · show t.row ≤ t.top + 1 + H
    omega
  · intro r hr c hc
    rw [Screen.at_scrolled s clear hr hc]
    dsimp only
    by_cases hlast : r < H - 1
    · rw [if_pos hlast, if_neg (by omega), hcells (r + 1) (by omega) c hc]
      congr 1
      omega
    · rw [if_neg hlast, if_pos (by omega)]
  · show t.row < t.top + 1 + H
    omega

/-- The cursor moves on behind a character. -/
theorem Shows.advance (h : Shows s t) :
    Tracks (if s.consCurX + 1 ≥ W then { s with consCurX := 0, consCurY := s.consCurY + 1 }
      else { s with consCurX := s.consCurX + 1 }) (t.advance W) := by
  obtain ⟨⟨hvis, hx, hcol, hy, htop, hle, hcells⟩, hrow⟩ := h
  have htracks : Tracks s t := ⟨hvis, hx, hcol, hy, htop, hle, hcells⟩
  unfold Term.advance
  by_cases hlast : t.col + 1 < W
  · rw [if_neg (by omega), if_pos hlast]
    exact htracks.move (s.consCurX + 1) s.consCurY t.row (t.col + 1) (by omega) hlast hy htop hle
  · rw [if_pos (by omega), if_neg hlast]
    exact htracks.move 0 (s.consCurY + 1) (t.row + 1) 0 rfl (by omega) (by omega) (by omega)
      (by omega)

/-- A backspace: at column 0 `check_cursor` puts the cursor at the end of the row above, or back. -/
theorem Shows.backspace (h : Shows s t) :
    Tracks (Screen.wrapLeft { s with consCurX := s.consCurX - 1 }) (t.back W) := by
  obtain ⟨⟨hvis, hx, hcol, hy, htop, hle, hcells⟩, hrow⟩ := h
  have htracks : Tracks s t := ⟨hvis, hx, hcol, hy, htop, hle, hcells⟩
  unfold Screen.wrapLeft Term.back
  dsimp only
  by_cases hpos : 0 < t.col
  · rw [if_neg (by omega), if_pos hpos]
    exact htracks.move _ _ t.row (t.col - 1) (by omega) (by omega) hy htop hle
  rw [if_pos (by omega), if_neg hpos]
  by_cases habove : t.top < t.row
  · rw [if_pos (by omega), if_pos habove]
    exact htracks.move _ _ (t.row - 1) (W - 1) (by omega) (by omega) (by omega) (by omega)
      (by omega)
  · rw [if_neg (by omega), if_neg habove]
    exact htracks.move _ _ t.row t.col (by omega) hcol hy htop hle

/-- A cursor that is not left of the screen stays where it is. -/
theorem Tracks.wrapLeft (h : Tracks s t) : Tracks s.wrapLeft t := by
  have hx := h.x
  rw [Screen.wrapLeft, if_neg (by omega)]
  exact h

/-- What the byte says, and the first half of `check_cursor`. -/
theorem Shows.act (h : Shows s t) (c : BitVec 8) :
    Tracks (s.act c).wrapLeft (t.act W s.consCurColor c) := by
  have hW := h.width_pos
  have hrow := h.row_lt
  have htop := h.top_le
  have hy := h.y
  unfold Screen.act Term.act
  by_cases hnl : c = 10
  · rw [if_pos hnl, if_pos hnl]
    exact (h.move 0 (s.consCurY + 1) (t.row + 1) 0 rfl hW (by omega) (by omega)
      (by omega)).wrapLeft
  rw [if_neg hnl, if_neg hnl]
  by_cases hcr : c = 13
  · rw [if_pos hcr, if_pos hcr]
    exact (h.move 0 s.consCurY t.row 0 rfl hW hy htop h.row_le).wrapLeft
  rw [if_neg hcr, if_neg hcr]
  by_cases hbs : c = 8
  · rw [if_pos hbs, if_pos hbs]
    exact h.backspace
  · rw [if_neg hbs, if_neg hbs]
    have hdraw := (h.draw c.toInt s.consCurColor).advance
    rw [BitVec.ofInt_toInt] at hdraw
    exact hdraw.wrapLeft

/-- The second half follows a cursor one row below. -/
theorem Tracks.settled (h : Tracks s t) (hH : 0 < H) :
    Shows (s.settled clear) (t.follow H clear) := by
  have hy := h.y
  have htop := h.top_le
  by_cases hrow : t.row < t.top + H
  · rw [Screen.settled, if_neg (by omega), Term.follow, if_pos hrow]
    exact ⟨h, hrow⟩
  · have hlast : t.row = t.top + H := by
      have := h.row_le
      omega
    have hvis : s.consCurState ≠ CURSOR_STATE_HIDDEN := by
      rw [h.visible]
      decide
    have hrows : (s.consCurY - H + 1).toNat = 1 := by omega
    rw [Screen.settled, if_pos ⟨fun hstay => hvis hstay.2.1, by omega⟩, hrows]
    exact h.scrolled hH hlast

/-- **One byte.** -/
theorem Shows.printed (h : Shows s t) (c : BitVec 8) :
    Shows (s.printed clear c) (t.putByte W H clear s.consCurColor c) := by
  have hcolor : ((s.act c).wrapLeft.settled clear).consCurColor = s.consCurColor :=
    congrArg Prod.snd (((s.act c).wrapLeft.settled_settings clear).trans
      ((s.act c).wrapLeft_settings.trans (s.act_settings c)))
  have hsettled : Shows ((s.act c).wrapLeft.settled clear)
      ((t.act W s.consCurColor c).follow H clear) := (h.act c).settled h.height_pos
  have hblank := hsettled.draw SPACE s.consCurColor
  unfold Screen.printed Screen.blanked
  rw [hcolor]
  exact hblank

theorem Shows.bounded (h : Shows s t) : s.Bounded := by
  have hx := h.x
  have hcol := h.col_lt
  have hy := h.y
  have htop := h.top_le
  have hrow := h.row_lt
  constructor
  all_goals omega

theorem Shows.ensures_scrPutbyte (h : Shows s t) (c : BitVec 8) :
    Ensures (fun _ s' => s'.consCurColor = s.consCurColor ∧
      Shows s' (t.putByte W H clear s.consCurColor c)) (scrPutbyte clear c) s := by
  have hact := h.act c
  have hfit : (s.act c).wrapLeft.consCurY < 2 * H := by
    have := hact.y
    have := hact.row_le
    have := h.height_pos
    omega
  apply (h.bounded.ensures_putbyte_fit h.width_pos h.height_pos hfit).mono
  rintro _ _ ⟨-, rfl⟩
  exact ⟨s.printed_color clear c, h.printed c⟩

/-- A string. -/
theorem Shows.ensures_scrPutbytes (clear : Int) : ∀ {s : Screen W H} {t : Term}
    (_ : Shows s t) (str : List (BitVec 8)), Ensures (fun _ s' => s'.consCurColor = s.consCurColor ∧
      Shows s' (t.putBytes W H clear s.consCurColor str)) (scrPutbytes clear str) s
  | _, _, h, [] => ⟨rfl, h⟩
  | s, t, h, c :: str => by
    rw [scrPutbytes, ensures_bind]
    apply (h.ensures_scrPutbyte c).mono
    rintro _ m ⟨hcolor, hm⟩
    apply (hm.ensures_scrPutbytes clear str).mono
    rintro _ s' ⟨hcolor', hs'⟩
    rw [hcolor] at hs' hcolor'
    exact ⟨hcolor', hs'⟩

/-! ## Rows above the window -/

/-- From `t` to `u` the window only moved down, and the rows that were above it are as they were. -/
structure ScrolledOff (t u : Term) : Prop where
  top_le : t.top ≤ u.top
  rows : ∀ r < t.top, u.rows r = t.rows r

theorem ScrolledOff.trans {t u v : Term} (h : ScrolledOff t u) (h' : ScrolledOff u v) :
    ScrolledOff t v where
  top_le := Nat.le_trans h.top_le h'.top_le
  rows r hr := by rw [h'.rows r (Nat.lt_of_lt_of_le hr h.top_le), h.rows r hr]

theorem ScrolledOff.write (t : Term) (h : t.top ≤ t.row) (c : ConsChar) :
    ScrolledOff t (t.write c) where
  top_le := Nat.le_refl _
  rows r hr := by
    funext k
    exact if_neg (by omega)

theorem ScrolledOff.follow (t : Term) (h : t.top ≤ t.row) (H : Nat) (clear : Int) :
    ScrolledOff t (t.follow H clear) := by
  unfold Term.follow
  split
  · exact ⟨Nat.le_refl _, fun _ _ => rfl⟩
  · refine ⟨Nat.le_succ _, ?_⟩
    intro r hr
    funext k
    exact if_neg (by omega)

theorem Term.follow_top_le (t : Term) (h : t.top ≤ t.row) (hH : 0 < H) (clear : Int) :
    (t.follow H clear).top ≤ (t.follow H clear).row := by
  unfold Term.follow
  split
  · exact h
  · show t.top + 1 ≤ t.row
    omega

/-- Moving the cursor touches no row and stays in the window. -/
theorem ScrolledOff.act (t : Term) (h : t.top ≤ t.row) (W : Nat) (color : Int) (c : BitVec 8) :
    ScrolledOff t (t.act W color c) ∧ (t.act W color c).top ≤ (t.act W color c).row := by
  unfold Term.act
  split
  · exact ⟨⟨Nat.le_refl _, fun _ _ => rfl⟩, Nat.le_succ_of_le h⟩
  split
  · exact ⟨⟨Nat.le_refl _, fun _ _ => rfl⟩, h⟩
  split
  · unfold Term.back
    split
    · exact ⟨⟨Nat.le_refl _, fun _ _ => rfl⟩, h⟩
    split
    · exact ⟨⟨Nat.le_refl _, fun _ _ => rfl⟩, by show t.top ≤ t.row - 1; omega⟩
    · exact ⟨⟨Nat.le_refl _, fun _ _ => rfl⟩, h⟩
  · have hwrite := ScrolledOff.write t h ⟨c, BitVec.ofInt 8 color⟩
    unfold Term.advance
    split
    · exact ⟨⟨hwrite.top_le, hwrite.rows⟩, h⟩
    · exact ⟨⟨hwrite.top_le, hwrite.rows⟩, Nat.le_succ_of_le h⟩

theorem ScrolledOff.putByte (t : Term) (h : t.top ≤ t.row) (W : Nat) (hH : 0 < H)
    (clear color : Int) (c : BitVec 8) :
    ScrolledOff t (t.putByte W H clear color c) ∧
      (t.putByte W H clear color c).top ≤ (t.putByte W H clear color c).row := by
  obtain ⟨hact, htop⟩ := ScrolledOff.act t h W color c
  have hfollow := ScrolledOff.follow (t.act W color c) htop H clear
  have htop' := Term.follow_top_le (t.act W color c) htop hH clear
  exact ⟨(hact.trans hfollow).trans (ScrolledOff.write _ htop' _), htop'⟩

theorem ScrolledOff.putBytes (W : Nat) (hH : 0 < H) (clear color : Int) :
    ∀ (str : List (BitVec 8)) (t : Term), t.top ≤ t.row →
      ScrolledOff t (t.putBytes W H clear color str)
  | [], t, _ => ⟨Nat.le_refl _, fun _ _ => rfl⟩
  | c :: str, t, h => by
    obtain ⟨hbyte, htop⟩ := ScrolledOff.putByte t h W hH clear color c
    exact hbyte.trans (ScrolledOff.putBytes W hH clear color str _ htop)

/-- **A screen with a visible cursor is a window on an unbounded terminal.**  `scr_putbytes`
leaves the screen that the terminal shows after the same bytes, with the colour setting as it was;
at every point of the string the rows above the window are final, and the window moves down
only. -/
theorem scr_putbytes_shows (clear : Int) (s : Screen W H) (str : List (BitVec 8))
    (hvis : s.consCurState = CURSOR_STATE_VISIBLE) (hx : 0 ≤ s.consCurX) (hxW : s.consCurX < W)
    (hy : 0 ≤ s.consCurY) (hyH : s.consCurY < H) :
    Shows s s.term ∧
    (∃ s', (scrPutbytes clear str).run s = some ((), s') ∧
      s'.consCurColor = s.consCurColor ∧
      Shows s' (s.term.putBytes W H clear s.consCurColor str)) ∧
    ∀ pre post, str = pre ++ post →
      ScrolledOff (s.term.putBytes W H clear s.consCurColor pre)
        (s.term.putBytes W H clear s.consCurColor str) := by
  have h := shows_term hvis hx hxW hy hyH
  refine ⟨h, ?_, ?_⟩
  · obtain ⟨_, s', hrun, hs'⟩ := (h.ensures_scrPutbytes clear str).run
    exact ⟨s', hrun, hs'⟩
  · rintro pre post rfl
    obtain ⟨_, u, _, _, hu⟩ := (h.ensures_scrPutbytes clear pre).run
    rw [Term.putBytes_append]
    exact ScrolledOff.putBytes W h.height_pos clear s.consCurColor post _ hu.top_le

/-- Two rows of two cells `.`, the cursor in the last one. -/
def dots : Screen 2 2 where
  consBuf _ := ⟨46, 7⟩
  consCurX := 1
  consCurY := 1
  consCurState := CURSOR_STATE_VISIBLE
  consCurColor := 7

/-- Printing `A` there scrolls: the second row moves up with the `A`, the new row is blank. -/
theorem dots_shows : ∃ s', (scrPutbytes 0 [65]).run dots = some ((), s') ∧
    Shows s' (dots.term.putBytes 2 2 0 7 [65]) := by
  obtain ⟨_, ⟨s', hrun, _, hshows⟩, _⟩ :=
    scr_putbytes_shows 0 dots [65] rfl (by decide) (by decide) (by decide) (by decide)
  exact ⟨s', hrun, hshows⟩

end Timix.Console
