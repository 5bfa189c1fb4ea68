import ViewCompiler.Proofs.Style.Colors
import ViewCompiler.Proofs.Style.Dimensions

/-!
# Texts of linear gradients

The text of a linear gradient is its name with a direction, which may be missing, and a list of
stops (`Gradient.Written`). A stop is the text of an opaque color, after which a position may stand;
every stop and the direction may have blanks around them.

Such a text is read to its end (`Reader.linearGradient_written`): a stop ends at a comma or a
closing parenthesis, but not at those inside of its color, and no color starts like a direction
(`Reader.angle_color`). The gradient has the first and the last color and, from three on, the one
in the middle; a text with one color only is refused (`Style.readWhole_linearGradient`).
-/

namespace ViewCompiler

namespace Gradient

/-- The sides to which a gradient can point, with their angles. -/
def sides : List (String × Scalar) :=
  [("to top", 0), ("to right", 90), ("to bottom", 180), ("to left", 270)]

/-- **The text of a direction** with its angle: a number of degrees or a side. -/
inductive DirectionWritten : List Char → Scalar → Prop
  | degrees {n u : List Char} {x : Scalar} (number : Scalar.Written n x)
      (word : u.map Char.toLower = "deg".toList) : DirectionWritten (n ++ u) x
  | side {name : String} {x : Scalar} {u : List Char} (known : (name, x) ∈ sides)
      (word : u.map Char.toLower = name.toList) : DirectionWritten u x

/-- What stands before the stops: nothing, or a direction with its comma. Without a direction a
gradient points down. -/
inductive LeadingWritten : List Char → Scalar → Prop
  | none : LeadingWritten [] 180
  | direction {before w after : List Char} {x : Scalar} (hbefore : Reader.Blanks before)
      (direction : DirectionWritten w x) (hafter : Reader.Blanks after) :
      LeadingWritten (before ++ (w ++ (after ++ [',']))) x

/-- The position of a stop after its color, if there is one. -/
inductive PositionWritten : List Char → Prop
  | none : PositionWritten []
  | position {gap w : List Char} {d : Dimension} (hgap : Reader.Blanks gap) (ne_nil : gap ≠ [])
      (dimension : Dimension.Written w d) : PositionWritten (gap ++ w)

/-- **The text of a stop** with its color, blanks around it included. -/
inductive StopWritten : List Char → Color → Prop
  | mk {before w p after : List Char} {c : Color} (hbefore : Reader.Blanks before)
      (color : Color.Written w c) (position : PositionWritten p) (hafter : Reader.Blanks after) :
      StopWritten (before ++ (w ++ p ++ after)) c

/-- **The text of a linear gradient** with its angle and the colors of its stops, of which there is
at least one. -/
inductive Written : List Char → Scalar → List Color → Prop
  | mk {name leading w : List Char} {ws : List (List Char)} {x : Scalar} {c : Color}
      {cs : List Color} (word : name.map Char.toLower = "linear-gradient(".toList)
      (hleading : LeadingWritten leading x) (first : StopWritten w c)
      (others : List.Forall₂ StopWritten ws cs) :
      Written (name ++ (leading ++ (w ++ (Reader.afterCommas ws ++ [')'])))) x (c :: cs)

end Gradient

namespace Reader

open ViewCompiler.Gradient

/-! ### Directions -/

theorem clashes_sides_named : ∀ side ∈ sides, ∀ e ∈ Color.named,
    clashes side.1.toList e.1.toList = true := by
  decide

/-- No color is named like the start of a side. -/
theorem clashes_side_color {w : List Char} {c : Color} (h : Color.Written w c)
    {side : String × Scalar} (hside : side ∈ sides) :
    clashes side.1.toList (w.map Char.toLower) = true := by
  obtain ⟨u, hu, hlow⟩ := h
  cases hu with
  | hex r g b =>
    obtain ⟨ds, rfl, -⟩ := Color.exists_of_rgbHex hlow
    simp only [sides, List.mem_cons, List.not_mem_nil, or_false] at hside
    rcases hside with rfl | rfl | rfl | rfl <;> rfl
  | function r g b =>
    rw [hlow, Color.toLower_function]
    simp only [sides, List.mem_cons, List.not_mem_nil, or_false] at hside
    rcases hside with rfl | rfl | rfl | rfl <;> rfl
  | name known =>
    rw [hlow, Color.toLower_of_mem_named known]
    exact clashes_sides_named _ hside _ known

/-- Where no number starts, an angle can only be a side. -/
theorem angle_of_endsNumber {cs : List Char} (h : EndsNumber cs) :
    angle cs = firstOf (sides.map fun (w, x) ↦ keyword w x) cs := by
  have hnumber : number cs = none := number_of_endsNumber h
  rw [angle, firstOf_of_none (followedBy_of_none hnumber),
    firstOf_of_none (map_of_none (followedBy_of_none hnumber)),
    firstOf_of_none (map_of_none (followedBy_of_none hnumber))]
  rfl

/-- **No color starts with a direction.** -/
theorem angle_color {w : List Char} {c : Color} (h : Color.Written w c) (rest : List Char) :
    angle (w ++ rest) = none := by
  have hends : EndsNumber (w ++ rest) := by
    obtain ⟨d, r, rfl, rfl | hd⟩ := h.exists_cons
    · exact fun e he ↦ (Option.some.inj he : '#' = e) ▸ not_or.2 ⟨by decide, by decide⟩
    · exact endsNumber_of_letter (by rwa [Char.isAlpha_toLower_eq_isAlpha]) _
  rw [angle_of_endsNumber hends]
  refine firstOf_eq_none fun p hp ↦ ?_
  obtain ⟨side, hside, rfl⟩ := List.mem_map.1 hp
  exact keyword_of_clashes (clashes_side_color h hside) rest

/-- The names of the sides start with a letter. -/
theorem exists_of_mem_sides {w : List Char} {side : String × Scalar} (hside : side ∈ sides)
    (word : w.map Char.toLower = side.1.toList) : ∃ c r, w = c :: r ∧ c.toLower.isAlpha = true := by
  have hletter : ∀ side ∈ sides, side.1.toList.head? = some 't' := by decide
  obtain ⟨r, hr⟩ := List.head?_eq_some_iff.1 (hletter side hside)
  obtain ⟨c, r', rfl, hc, -⟩ := List.map_eq_cons_iff.1 (word.trans hr)
  exact ⟨c, r', rfl, by rw [hc]; decide⟩

/-- **A direction is read to its end.** -/
theorem angle_append {w : List Char} {x : Scalar} (h : DirectionWritten w x) (rest : List Char) :
    angle (w ++ rest) = some (x, rest) := by
  cases h with
  | @degrees n u x number word =>
    have hu : EndsNumber (u ++ rest) := by
      obtain ⟨c, r, rfl, hc, -⟩ := List.map_eq_cons_iff.1 word
      exact endsNumber_of_letter (by rw [hc]; decide) _
    rw [List.append_assoc]
    exact firstOf_of_some (followedBy_eq_some_iff.2
      ⟨_, (), number_append number hu, word_append word rest⟩)
  | @side name x u known word =>
    obtain ⟨c, r, rfl, hc⟩ := exists_of_mem_sides known word
    have hends : EndsNumber (c :: r ++ rest) := endsNumber_of_letter hc _
    rw [angle_of_endsNumber hends]
    exact firstOf_keywords known (by decide) word rest

theorem direction_head {w : List Char} {x : Scalar} (h : DirectionWritten w x) (rest : List Char) :
    ∀ c ∈ (w ++ rest).head?, c.isWhitespace = false := by
  cases h with
  | @degrees n u x number word =>
    obtain ⟨d, r, rfl⟩ := number.number.exists_cons
    exact fun c hc ↦ (Option.some.inj hc : d = c) ▸
      (number.number.numeral d List.mem_cons_self).not_blank
  | @side name x u known word =>
    obtain ⟨d, r, rfl, hd⟩ := exists_of_mem_sides known word
    exact fun c hc ↦ (Option.some.inj hc : d = c) ▸ Text.not_blank_of_letter hd

/-! ### Stops -/

theorem color_head {w : List Char} {c : Color} (h : Color.Written w c) (rest : List Char) :
    ∀ d ∈ (w ++ rest).head?, d.isWhitespace = false := by
  obtain ⟨d, r, rfl, hd⟩ := h.exists_cons
  have hblank : d.isWhitespace = false := by
    rcases hd with rfl | hd
    · decide
    · exact Text.not_blank_of_letter (by rwa [Char.isAlpha_toLower_eq_isAlpha])
  exact fun e he ↦ (Option.some.inj he : d = e) ▸ hblank

/-- The position of a stop is read if there is one, and blanks without a position are left. -/
theorem position_append {p after rest : List Char} (hp : PositionWritten p)
    (hafter : Blanks after) (hrest : EndsItem rest) :
    Breaks (p ++ (after ++ rest)) ∧
    ∃ found, (someBlanks.after dimension).optional (p ++ (after ++ rest)) =
      some (found, after ++ rest) := by
  have hend : Breaks (after ++ rest) := .append hafter hrest.breaks
  cases hp with
  | none =>
    refine ⟨hend, none, optional_of_none ?_⟩
    by_cases hnil : after = []
    · rw [hnil]
      exact after_of_none (someBlanks_of_head hrest.head)
    · -- the blanks are taken for those before a position, but none comes after them
      refine Option.eq_none_iff_forall_ne_some.2 fun ⟨d, r⟩ hsome ↦ ?_
      obtain ⟨_, r', hblanks, hd⟩ := after_eq_some_iff.1 hsome
      rw [List.nil_append, someBlanks_append hafter hnil hrest.head] at hblanks
      obtain ⟨-, rfl⟩ := Prod.mk.inj (Option.some.inj hblanks)
      exact absurd ((dimension_of_breaks hrest.breaks).symm.trans hd) (by simp)
  | @position gap w d hgap ne_nil dim =>
    have hw : ∀ c ∈ (w ++ (after ++ rest)).head?, c.isWhitespace = false :=
      Text.head_append dim.ne_nil (fun c hc ↦ dim.not_blank c (List.mem_of_mem_head? hc)) _
    refine ⟨fun c hc ↦ Breaks.of_blanks hgap c ?_, some d, optional_of_some ?_⟩
    · rwa [List.append_assoc, List.head?_append_of_ne_nil _ ne_nil] at hc
    · rw [List.append_assoc]
      exact after_eq_some_iff.2
        ⟨(), _, someBlanks_append hgap ne_nil hw, dimension_append dim hend⟩

/-- **A stop is read to its end.** -/
theorem colorStop_append {w : List Char} {c : Color} (h : StopWritten w c) {rest : List Char}
    (hrest : EndsItem rest) : colorStop.padded (w ++ rest) = some (c, rest) := by
  cases h with
  | @mk before w p after c hbefore color position hafter =>
    obtain ⟨hbreak, found, hposition⟩ := position_append position hafter hrest
    have hstop : colorStop (w ++ p ++ (after ++ rest)) = some (c, after ++ rest) := by
      rw [List.append_assoc]
      exact followedBy_eq_some_iff.2 ⟨_, found, color_append color hbreak, hposition⟩
    have hhead : ∀ d ∈ (w ++ p ++ (after ++ rest)).head?, d.isWhitespace = false := by
      rw [List.append_assoc]
      exact color_head color _
    have hpadded := padded_append hbefore hhead hafter hrest.head hstop
    rwa [← List.append_assoc, ← List.append_assoc, List.append_assoc before] at hpadded

/-! ### Gradients -/

/-- What stands before the stops is read off. -/
theorem leading_append {leading w : List Char} {x : Scalar} {c : Color}
    (h : LeadingWritten leading x) (hstop : StopWritten w c) (rest : List Char) :
    ∃ found, (angle.padded.followedBy (char ',')).optional (leading ++ (w ++ rest)) =
      some (found, w ++ rest) ∧ found.getD 180 = x := by
  cases h with
  | none =>
    -- the first stop starts with a color, in which no direction can be read
    refine ⟨none, optional_of_none (followedBy_of_none ?_), rfl⟩
    cases hstop with
    | @mk before w p after c hbefore color position hafter =>
      have hdrop : (before ++ (w ++ p ++ after) ++ rest).dropWhile Char.isWhitespace =
          w ++ (p ++ after ++ rest) := by
        rw [List.append_assoc, List.append_assoc w, List.append_assoc w,
          Text.dropWhile_append_left hbefore (color_head color _)]
      rw [List.nil_append, padded_eq, hdrop, angle_color color, Option.map_none]
  | @direction before w' after x hbefore direction hafter =>
    refine ⟨some x, optional_of_some (followedBy_eq_some_iff.2 ⟨',' :: (w ++ rest), (), ?_,
      char_cons ',' _⟩), rfl⟩
    have hcomma : ∀ c ∈ (',' :: (w ++ rest)).head?, c.isWhitespace = false := by simp
    have hpadded := padded_append hbefore (direction_head direction _) hafter hcomma
      (angle_append direction _)
    simpa [List.append_assoc] using hpadded

/-- **The text of a gradient is read to its end.** -/
theorem linearGradient_written {w : List Char} {x : Scalar} {cs : List Color}
    (h : Gradient.Written w x cs) :
    linearGradient w = (Gradient.ofStops? x cs).map fun g ↦ (g, []) := by
  cases h with
  | @mk name leading w ws x c cs word hleading first others =>
    obtain ⟨found, hfound, rfl⟩ := leading_append hleading first (afterCommas ws ++ [')'])
    have hstops := separated_commas (fun w c hstop rest hrest ↦ colorStop_append hstop hrest)
      first others []
    rw [linearGradient, word_append word]
    simp only [Option.bind_eq_bind, Option.bind_some, hfound, hstops, char_cons]
    cases Gradient.ofStops? (found.getD 180) (c :: cs) <;> rfl

theorem whole_linearGradient {w : List Char} {x : Scalar} {cs : List Color}
    (h : Gradient.Written w x cs) : linearGradient.whole w = Gradient.ofStops? x cs := by
  have hhead : ∀ c ∈ w.head?, c.isWhitespace = false := by
    cases h with
    | mk word hleading first others =>
      obtain ⟨c, r, rfl, hc, -⟩ := List.map_eq_cons_iff.1 word
      have hletter : c.isWhitespace = false := Text.not_blank_of_letter (by rw [hc]; decide)
      exact fun d hd ↦ (Option.some.inj hd : c = d) ▸ hletter
  rw [whole, padded_eq, Text.dropWhile_eq_self hhead, linearGradient_written h]
  cases Gradient.ofStops? x cs <;> rfl

end Reader

/-- From two colors on there is a gradient. -/
theorem Gradient.exists_of_stops (x : Scalar) {cs : List Color} (h : 2 ≤ cs.length) :
    ∃ g, Gradient.ofStops? x cs = some g ∧ g.angle = Scalar.emod x 360 ∧
      cs.head? = some g.start ∧ cs.getLast? = some g.finish ∧
      (cs.length = 2 → g.center = none) ∧
      (3 ≤ cs.length → ∃ c, cs[cs.length / 2]? = some c ∧ g.center = some c) := by
  match cs with
  | [] => exact absurd h (by simp)
  | [_] => exact absurd h (by simp)
  | first :: second :: rest =>
    refine ⟨_, rfl, rfl, rfl, ?_, fun htwo ↦ ?_, fun hthree ↦ ?_⟩
    · rw [List.getLast?_cons_cons, List.getLast?_eq_some_getLast (by simp)]
    · have hrest : rest = [] := by simpa using htwo
      rw [hrest]
      rfl
    · have hrest : rest.isEmpty = false := by
        rw [List.isEmpty_eq_false_iff]
        rintro rfl
        exact absurd hthree (by simp)
      have hmiddle : (first :: second :: rest).length / 2 < (first :: second :: rest).length := by
        omega
      refine ⟨_, List.getElem?_eq_getElem hmiddle, ?_⟩
      rw [hrest]
      exact List.getElem?_eq_getElem hmiddle

namespace Style

/-- **A written gradient reads back.** From two colors on there is a gradient with the angle of the
direction, the first and the last color and, from three colors on, the one in the middle; one color
is refused. -/
theorem readWhole_linearGradient (property : String) {value : String} {x : Scalar}
    {cs : List Color} (h : Gradient.Written value.toList x cs) :
    (2 ≤ cs.length → ∃ g, readWhole property value Reader.linearGradient = .ok g ∧
      Gradient.ofStops? x cs = some g ∧ g.angle = Scalar.emod x 360 ∧
      cs.head? = some g.start ∧ cs.getLast? = some g.finish ∧
      (cs.length = 2 → g.center = none) ∧
      (3 ≤ cs.length → ∃ c, cs[cs.length / 2]? = some c ∧ g.center = some c)) ∧
    (cs.length = 1 →
      readWhole property value Reader.linearGradient = .error (.invalidValue property value)) := by
  refine ⟨fun htwo ↦ ?_, fun hone ↦ ?_⟩
  · obtain ⟨g, hg, hparts⟩ := Gradient.exists_of_stops x htwo
    exact ⟨g, by rw [readWhole, Reader.whole_linearGradient h, hg], hg, hparts⟩
  · obtain ⟨c, rfl⟩ := List.length_eq_one_iff.1 hone
    rw [readWhole, Reader.whole_linearGradient h]
    rfl

/-- A gradient with a side, three forms of colors, a position and blanks in several places. -/
theorem linearGradient_to_left :
    Gradient.Written "linear-gradient( To Left ,#FF0000, rgb(0, 128, 0) 50%\n,BLUE)".toList 270
      [Color.rgb 255 0 0, Color.rgb 0 128 0, Color.rgb 0 0 255] ∧
    ∃ g, readWhole "background-image"
        "linear-gradient( To Left ,#FF0000, rgb(0, 128, 0) 50%\n,BLUE)" Reader.linearGradient =
          .ok g ∧ g.start = Color.rgb 255 0 0 ∧ g.center = some (Color.rgb 0 128 0) := by
  have hnone : Reader.Blanks [] := .nil
  have hspace : Reader.Blanks [' '] := by simp [Reader.Blanks]
  have hline : Reader.Blanks ['\n'] := by simp [Reader.Blanks]
  have hside : Gradient.DirectionWritten "To Left".toList 270 :=
    .side (show ("to left", 270) ∈ Gradient.sides by simp [Gradient.sides]) (by decide)
  have hfifty : Decimal.IsNumber "50".toList := .unsigned (.whole ⟨by decide, by simp⟩)
  obtain ⟨x, hx⟩ := Decimal.exists_ofChars hfifty
  have hhalf : Dimension.Written ("50".toList ++ ['%']) (.percent x) := .percent ⟨hfifty, hx⟩
  have hred : Gradient.StopWritten ([] ++ ("#FF0000".toList ++ [] ++ [])) (.rgb 255 0 0) :=
    .mk hnone ⟨_, .hex 255 0 0, by decide⟩ .none hnone
  have hgreen : Gradient.StopWritten ([' '] ++ ("rgb(0, 128, 0)".toList ++
      ([' '] ++ ("50".toList ++ ['%'])) ++ ['\n'])) (.rgb 0 128 0) :=
    .mk hspace ⟨_, .function 0 128 0, by decide⟩ (.position hspace (by decide) hhalf) hline
  have hblue : Gradient.StopWritten ([] ++ ("BLUE".toList ++ [] ++ [])) (.rgb 0 0 255) :=
    .mk hnone ⟨_, .name (show ("blue", .rgb 0 0 255) ∈ Color.named by simp [Color.named]),
      by decide⟩ .none hnone
  have hwritten := Gradient.Written.mk
    (show "linear-gradient(".toList.map Char.toLower = "linear-gradient(".toList by decide)
    (.direction hspace hside hspace) hred (.cons hgreen (.cons hblue .nil))
  have htext : "linear-gradient( To Left ,#FF0000, rgb(0, 128, 0) 50%\n,BLUE)".toList =
    "linear-gradient(".toList ++ ([' '] ++ ("To Left".toList ++ ([' '] ++ [','])) ++
      ([] ++ ("#FF0000".toList ++ [] ++ []) ++ (Reader.afterCommas [[' '] ++
        ("rgb(0, 128, 0)".toList ++ ([' '] ++ ("50".toList ++ ['%'])) ++ ['\n']),
        [] ++ ("BLUE".toList ++ [] ++ [])] ++ [')']))) := by
    decide
  rw [← htext] at hwritten
  obtain ⟨g, hread, -, -, hstart, -, -, hcenter⟩ :=
    (readWhole_linearGradient "background-image" hwritten).1 (by decide)
  obtain ⟨c, hc, hcenter⟩ := hcenter (by decide)
  refine ⟨hwritten, g, hread, (Option.some.inj hstart).symm, ?_⟩
  rw [hcenter, ← hc]
  rfl

end Style

end ViewCompiler
