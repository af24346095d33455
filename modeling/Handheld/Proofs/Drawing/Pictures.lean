import Handheld.Proofs.Drawing.Safety
import Handheld.Text.Lines

/-!
# Pictures

A picture has a line for each row of pixels and a character for each pixel. With
four levels it shows both planes, with two only the main one, and with three it
does not show which plane is which.
-/

namespace Handheld

/-! ## Characters -/

namespace Shade

theorem glyph_not_break (shade : Shade) (main back : Bool) :
    shade.glyph main back ≠ '\n' ∧ shade.glyph main back ≠ '\r' := by
  cases shade <;> cases main <;> cases back <;> decide

theorem glyph_mono_eq_iff {main back main' back' : Bool} :
    mono.glyph main back = mono.glyph main' back' ↔ main = main' := by
  cases main <;> cases main' <;> simp [glyph]

theorem glyph_gray4_eq_iff {main back main' back' : Bool} :
    gray4.glyph main back = gray4.glyph main' back' ↔ main = main' ∧ back = back' := by
  cases main <;> cases back <;> cases main' <;> cases back' <;> simp [glyph]

theorem glyph_gray3_comm (main back : Bool) : gray3.glyph main back = gray3.glyph back main := by
  cases main <;> cases back <;> rfl

end Shade

/-! ## Lines -/

namespace Text

/-- Rows that are each ended by a newline. -/
def joined (rows : List (List Char)) : String :=
  String.ofList (rows.flatMap fun row => row ++ ['\n'])

theorem pieces_joined {rows : List (List Char)} (h : ∀ row ∈ rows, '\n' ∉ row) :
    pieces (joined rows) = rows ++ [[]] := by
  unfold pieces joined
  rw [String.toList_ofList]
  induction rows with
  | nil => rfl
  | cons row rows ih =>
    obtain ⟨hrow, hrows⟩ := List.forall_mem_cons.1 h
    rw [List.flatMap_cons, List.append_assoc, List.singleton_append,
      List.splitOn_append_cons_self_of_not_mem hrow, ih hrows, List.cons_append]

theorem lines_joined {rows : List (List Char)} (h : ∀ row ∈ rows, '\n' ∉ row)
    (hreturn : ∀ row ∈ rows, '\r' ∉ row) : lines (joined rows) = rows.map String.ofList := by
  have hkeeps : ∀ row ∈ rows, withoutReturn row = row := fun row hrow =>
    if_neg fun hlast => hreturn row hrow (List.mem_of_getLast? hlast)
  have hsame := List.map_congr_left fun row hrow => congrArg String.ofList (hkeeps row hrow)
  unfold lines
  simp only [pieces_joined h, List.dropLast_concat, List.getLast?_concat]
  simpa using hsame

theorem joined_inj {rows rows' : List (List Char)} (h : ∀ row ∈ rows, '\n' ∉ row)
    (h' : ∀ row ∈ rows', '\n' ∉ row) : joined rows = joined rows' ↔ rows = rows' := by
  constructor
  · intro heq
    have hpieces := congrArg pieces heq
    rw [pieces_joined h, pieces_joined h'] at hpieces
    exact List.append_cancel_right hpieces
  · exact congrArg joined

end Text

/-! ## Rows -/

namespace Screen

variable (s : Screen) (shade : Shade)

def rows : List (List Char) :=
  (List.range screenHeight).map (s.row shade)

/-- The character for a pixel. -/
def glyphAt (x y : Int) : Char :=
  shade.glyph (s.main.get x y) (s.back.get x y)

theorem picture_eq_joined : s.picture shade = Text.joined (s.rows shade) := by
  unfold picture Text.joined rows
  rw [List.flatMap_map]

theorem row_not_break {row : List Char} (h : row ∈ s.rows shade) : '\n' ∉ row ∧ '\r' ∉ row := by
  obtain ⟨y, -, rfl⟩ := List.mem_map.1 h
  constructor <;> intro hmem <;> obtain ⟨x, -, hx⟩ := List.mem_map.1 hmem
  · exact (shade.glyph_not_break _ _).1 hx
  · exact (shade.glyph_not_break _ _).2 hx

theorem lines_picture : Text.lines (s.picture shade) = (s.rows shade).map String.ofList := by
  rw [picture_eq_joined]
  exact Text.lines_joined (fun _ hrow => (s.row_not_break shade hrow).1)
    fun _ hrow => (s.row_not_break shade hrow).2

theorem getElem?_rows {y : Nat} (hy : y < screenHeight) :
    (s.rows shade)[y]? = some (s.row shade y) := by
  simp [rows, hy]

theorem getElem?_row {x : Nat} (hx : x < screenWidth) (y : Nat) :
    (s.row shade y)[x]? = some (s.glyphAt shade x y) := by
  simp [row, hx, glyphAt]

variable {s shade}

theorem picture_eq_iff {t : Screen} :
    s.picture shade = t.picture shade ↔
      ∀ x y, Plane.OnScreen x y → s.glyphAt shade x y = t.glyphAt shade x y := by
  rw [picture_eq_joined, picture_eq_joined,
    Text.joined_inj (fun _ hrow => (s.row_not_break shade hrow).1)
      fun _ hrow => (t.row_not_break shade hrow).1]
  constructor
  · rintro hrows x y ⟨hx, hright, hy, hbottom⟩
    lift x to Nat using hx
    lift y to Nat using hy
    have hrow := congrArg (·[y]?) hrows
    simp only [getElem?_rows _ _ (Int.ofNat_lt.1 hbottom), Option.some.injEq] at hrow
    have hglyph := congrArg (·[x]?) hrow
    simpa only [getElem?_row _ _ (Int.ofNat_lt.1 hright), Option.some.injEq] using hglyph
  · intro h
    refine List.map_congr_left fun y hy => List.map_congr_left fun x hx => h x y ?_
    rw [List.mem_range] at hx hy
    unfold Plane.OnScreen
    omega

theorem picture_mono_eq_iff {t : Screen} : s.picture .mono = t.picture .mono ↔ s.main = t.main := by
  rw [picture_eq_iff]
  constructor
  · exact fun h => Plane.ext_get fun x y hon => Shade.glyph_mono_eq_iff.1 (h x y hon)
  · exact fun h x y _ => Shade.glyph_mono_eq_iff.2 (h ▸ rfl)

theorem picture_gray4_eq_iff {t : Screen} : s.picture .gray4 = t.picture .gray4 ↔ s = t := by
  rw [picture_eq_iff]
  constructor
  · intro h
    have hplanes := fun x y hon => Shade.glyph_gray4_eq_iff.1 (h x y hon)
    obtain ⟨main, back⟩ := s
    obtain ⟨main', back'⟩ := t
    congr 1
    · exact Plane.ext_get fun x y hon => (hplanes x y hon).1
    · exact Plane.ext_get fun x y hon => (hplanes x y hon).2
  · rintro rfl x y -
    rfl

/-- The planes in each other's place. -/
def swapped (s : Screen) : Screen where
  main := s.back
  back := s.main

theorem picture_gray3_swapped (s : Screen) : s.swapped.picture .gray3 = s.picture .gray3 :=
  picture_eq_iff.2 fun _ _ _ => Shade.glyph_gray3_comm ..

end Screen

/-! ## Pictures of arrays -/

namespace Canvas

/-- Adds the character for the pixel at this place of the arrays. -/
def pushGlyph? (c : Canvas) (shade : Shade) (text : String) (i : Nat) : Option String := do
  let main ← load? c.main i
  let back ← load? c.back i
  return text.push (shade.glyph main back)

def pushRow? (c : Canvas) (shade : Shade) (text : String) (row : Nat) : Option String := do
  let text ← (List.range screenWidth).foldlM
    (fun text column => c.pushGlyph? shade text (row * screenWidth + column)) text
  return text.push '\n'

def picture? (c : Canvas) (shade : Shade) : Option String :=
  (List.range screenHeight).foldlM (c.pushRow? shade) ""

theorem foldlM_text {α : Type} {g : String → α → Option String} {f : α → List Char} {xs : List α}
    (h : ∀ text, ∀ x ∈ xs, g text x = some (text ++ String.ofList (f x))) (text : String) :
    xs.foldlM g text = some (text ++ String.ofList (xs.flatMap f)) := by
  induction xs generalizing text with
  | nil => simp
  | cons x xs ih =>
    obtain ⟨hx, hxs⟩ := List.forall_mem_cons.1 fun x hx => fun text => h text x hx
    rw [List.foldlM_cons, hx, Option.bind_eq_bind, Option.bind_some,
      ih (fun text x hx => hxs x hx text), List.flatMap_cons, String.ofList_append,
      String.append_assoc]

theorem pushGlyph?_canvas (s : Screen) (shade : Shade) (text : String) {x y : Nat}
    (hx : x < screenWidth) (hy : y < screenHeight) :
    s.canvas.pushGlyph? shade text (y * screenWidth + x) =
      some (text ++ String.ofList [s.glyphAt shade x y]) := by
  have hon : Plane.OnScreen x y := by
    unfold Plane.OnScreen
    omega
  have hload (p : Plane) : load? p.buffer (y * screenWidth + x) = some (p.get x y) := by
    have hget := get?_buffer p x y
    unfold get? at hget
    rwa [place?_eq, if_pos hon] at hget
  rw [pushGlyph?, Screen.canvas, hload, hload]
  rfl

theorem pushRow?_canvas (s : Screen) (shade : Shade) (text : String) {y : Nat}
    (hy : y < screenHeight) :
    s.canvas.pushRow? shade text y = some (text ++ String.ofList (s.row shade y ++ ['\n'])) := by
  have hrow := foldlM_text (f := fun x : Nat => [s.glyphAt shade x y])
    (fun text x hx => pushGlyph?_canvas s shade text (List.mem_range.1 hx) hy) text
  rw [pushRow?, hrow, ← List.map_eq_flatMap]
  change some ((text ++ String.ofList (s.row shade y)).push '\n') = _
  rw [String.push_eq_append, String.append_assoc, String.ofList_append]
  rfl

theorem picture?_canvas (s : Screen) (shade : Shade) :
    s.canvas.picture? shade = some (s.picture shade) := by
  have hrows := foldlM_text (f := fun y : Nat => s.row shade y ++ ['\n'])
    (fun text y hy => pushRow?_canvas s shade text (List.mem_range.1 hy)) ""
  rw [picture?, hrows, String.empty_append, Screen.picture]

end Canvas

/-! ## The whole -/

/-- The picture of a screen, whatever commands have led to it. The loops over the arrays come to it.
It has a line for each row and in there a character for each column, which is up to that pixel of the
two planes. Four levels tell all screens apart, and two levels the main planes and nothing else.
Three levels do not tell the planes from each other. -/
theorem pictures_faithful (s : Screen) :
    (∀ shade, s.canvas.picture? shade = some (s.picture shade) ∧
      let lines := Text.lines (s.picture shade)
      s.picture shade = Text.joined (lines.map String.toList) ∧
      lines.length = 64 ∧ (∀ line ∈ lines, line.length = 96 ∧ '\n' ∉ line.toList) ∧
      ∀ x y : Nat, x < 96 → y < 64 → lines[y]?.bind (·.toList[x]?) =
        some (shade.glyph (s.main.get x y) (s.back.get x y))) ∧
    (∀ t : Screen, s.picture .gray4 = t.picture .gray4 ↔ s = t) ∧
    (∀ t : Screen, s.picture .mono = t.picture .mono ↔ s.main = t.main) ∧
    s.swapped.picture .gray3 = s.picture .gray3 := by
  refine ⟨fun shade => ⟨Canvas.picture?_canvas s shade, ?_⟩, fun t => Screen.picture_gray4_eq_iff,
    fun t => Screen.picture_mono_eq_iff, s.picture_gray3_swapped⟩
  have hback : ((s.rows shade).map String.ofList).map String.toList = s.rows shade := by simp
  rw [s.lines_picture]
  dsimp only
  rw [hback]
  refine ⟨s.picture_eq_joined shade, by simp [Screen.rows, screenHeight], fun line hline => ?_,
    fun x y hx hy => ?_⟩
  · obtain ⟨row, hrow, rfl⟩ := List.mem_map.1 hline
    rw [String.toList_ofList]
    refine ⟨?_, (s.row_not_break shade hrow).1⟩
    obtain ⟨y, -, rfl⟩ := List.mem_map.1 hrow
    simp [Screen.row, screenWidth]
  · rw [List.getElem?_map, s.getElem?_rows shade hy, Option.map_some, Option.bind_some,
      String.toList_ofList, s.getElem?_row shade hx]
    rfl

theorem pictures_faithful_pixels :
    let s : Screen := ⟨Plane.blank.set 0 0 true, Plane.blank.set 1 0 true⟩
    ((Text.lines (s.picture .gray4))[0]?.bind (·.toList[0]?) = some '▓' ∧
      (Text.lines (s.picture .gray4))[0]?.bind (·.toList[1]?) = some '░') ∧
    s.swapped.picture .gray3 = s.picture .gray3 ∧ s.swapped.picture .gray4 ≠ s.picture .gray4 ∧
      s.swapped.picture .mono ≠ s.picture .mono := by
  intro s
  have hmain : s.main.get 0 0 = true ∧ s.main.get 1 0 = false := by
    constructor <;> rw [Plane.get_set] <;> decide
  have hback : s.back.get 0 0 = false ∧ s.back.get 1 0 = true := by
    constructor <;> rw [Plane.get_set] <;> decide
  have hdiffer : s.main ≠ s.swapped.main := by
    intro h
    have hget := congrArg (Plane.get · 0 0) h
    cases hmain.1.symm.trans (hget.trans hback.1)
  obtain ⟨hpicture, hgray4, hmono, hgray3⟩ := pictures_faithful s
  obtain ⟨-, -, -, -, hglyph⟩ := hpicture .gray4
  refine ⟨⟨?_, ?_⟩, hgray3, fun h => ?_, fun h => ?_⟩
  · rw [hglyph 0 0 (by decide) (by decide)]
    change some (Shade.gray4.glyph (s.main.get 0 0) (s.back.get 0 0)) = _
    rw [hmain.1, hback.1, Shade.glyph]
  · rw [hglyph 1 0 (by decide) (by decide)]
    change some (Shade.gray4.glyph (s.main.get 1 0) (s.back.get 1 0)) = _
    rw [hmain.2, hback.2, Shade.glyph]
  · exact hdiffer (congrArg Screen.main ((hgray4 _).1 h.symm))
  · exact hdiffer ((hmono _).1 h.symm)

end Handheld
