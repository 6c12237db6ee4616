import FusionPipeline.PathText

/-! A path's text names the path it was printed from. -/

namespace FusionPipeline

namespace FieldPath

def Named (path : FieldPath) : Prop :=
  match path.target with
  | .meta_ _ => True
  | .record segments => "" ∉ segments

end FieldPath

theorem ofList_ne_empty {text : List Char} (named : text ≠ []) : String.ofList text ≠ "" := by
  intro empty
  rw [← String.toList_inj, String.toList_ofList] at empty
  exact named empty

theorem SegmentText.named {text : List Char} {segment : String} (here : SegmentText text segment) :
    segment ≠ "" := by
  cases here with
  | bare named plain => exact ofList_ne_empty named
  | quoted escaped named => exact ofList_ne_empty named

theorem SegmentsText.named {text : List Char} {segments : List String}
    (isText : SegmentsText text segments) : "" ∉ segments := by
  induction isText with
  | last here =>
      rw [List.mem_singleton]
      exact here.named.symm
  | more here later ih =>
      rw [List.mem_cons, not_or]
      exact ⟨here.named.symm, ih⟩

theorem PathText.named {text : List Char} {field : FieldPath} (isText : PathText text field) :
    field.Named := by
  cases isText with
  | whole => exact List.not_mem_nil
  | rooted isText => exact isText.named
  | bare isText notMeta => exact isText.named
  | meta_ isText => exact True.intro

theorem escaped_replace (name : List Char) :
    Escaped (replaceChar '"' ['\\', '"'] (replaceChar '\\' ['\\', '\\'] name)) name := by
  induction name with
  | nil => exact Escaped.nil
  | cons char name ih =>
      by_cases escapes : char = '"' ∨ char = '\\'
      · have first : replaceChar '"' ['\\', '"'] (replaceChar '\\' ['\\', '\\'] (char :: name)) =
            '\\' :: char :: replaceChar '"' ['\\', '"'] (replaceChar '\\' ['\\', '\\'] name) := by
          rcases escapes with rfl | rfl <;> rfl
        rw [first]
        exact Escaped.escape escapes ih
      · obtain ⟨notQuote, notEscape⟩ := not_or.mp escapes
        have first : replaceChar '"' ['\\', '"'] (replaceChar '\\' ['\\', '\\'] (char :: name)) =
            char :: replaceChar '"' ['\\', '"'] (replaceChar '\\' ['\\', '\\'] name) := by
          simp [replaceChar, notQuote, notEscape]
        rw [first]
        exact Escaped.plain notQuote notEscape ih

theorem segmentText_display {segment : String} (named : segment ≠ "") :
    SegmentText (displaySegment segment) segment := by
  have chars : segment.toList ≠ [] := by
    intro empty
    apply named
    rw [← @String.ofList_toList segment, empty]
  rw [displaySegment]
  split
  next bare =>
    have text := SegmentText.bare chars (List.all_eq_true.mp bare.2)
    rwa [String.ofList_toList] at text
  next =>
    have text := SegmentText.quoted (escaped_replace segment.toList) chars
    rwa [String.ofList_toList] at text

theorem joinDots_cons (first second : List Char) (rest : List (List Char)) :
    joinDots (first :: second :: rest) = first ++ '.' :: joinDots (second :: rest) := by
  simp [joinDots, List.intercalate]

theorem segmentsText_display {first : String} {rest : List String} (named : "" ∉ first :: rest) :
    SegmentsText (joinDots ((first :: rest).map displaySegment)) (first :: rest) := by
  induction rest generalizing first with
  | nil =>
      rw [List.mem_singleton] at named
      have here := segmentText_display (Ne.symm named)
      have single : joinDots ([first].map displaySegment) = displaySegment first := by
        simp [joinDots, List.intercalate]
      rw [single]
      exact SegmentsText.last here
  | cons second rest ih =>
      rw [List.mem_cons, not_or] at named
      rw [List.map_cons, List.map_cons, joinDots_cons]
      exact SegmentsText.more (segmentText_display (Ne.symm named.1)) (ih named.2)

theorem metaText (field : MetaField) :
    SegmentsText (metaRoot.toList ++ '.' :: field.asStr.toList) [metaRoot, field.asStr] := by
  have bare {name : String} (named : name.toList ≠ [])
      (plain : ∀ char ∈ name.toList, isSegmentChar char = true) : SegmentText name.toList name := by
    have text := SegmentText.bare named plain
    rwa [String.ofList_toList] at text
  have root : SegmentText metaRoot.toList metaRoot := bare (by decide) (by decide)
  have name : SegmentText field.asStr.toList field.asStr := by
    cases field with
    | id => exact bare (by decide) (by decide)
    | tenant => exact bare (by decide) (by decide)
    | ingestionTime => exact bare (by decide) (by decide)
    | deliveryCount => exact bare (by decide) (by decide)
  exact SegmentsText.more root (SegmentsText.last name)

theorem pathText_display {field : FieldPath} (named : field.Named) :
    PathText field.display field := by
  obtain ⟨target⟩ := field
  cases target with
  | meta_ field => exact PathText.meta_ (metaText field)
  | record segments =>
      cases segments with
      | nil => exact PathText.whole
      | cons first rest =>
          have isText := segmentsText_display named
          by_cases reserved : first = metaRoot
          · rw [FieldPath.display]
            dsimp only
            rw [if_pos reserved, List.singleton_append]
            exact PathText.rooted isText
          · rw [FieldPath.display]
            dsimp only
            rw [if_neg reserved, List.nil_append]
            refine PathText.bare isText ?_
            rw [List.head?_cons]
            exact fun same => reserved (Option.some.inj same)

theorem children_path (children : List String) (written : WritePath) :
    (children.foldl WritePath.child written).segments = written.segments ++ children := by
  induction children generalizing written with
  | nil => rw [List.foldl_nil, List.append_nil]
  | cons child children ih =>
      rw [List.foldl_cons, ih, WritePath.child, List.append_assoc, List.singleton_append]

/-- A path the parser returns, and any non-empty children of it, are read back from their own
texts. -/
theorem FieldPath.parse_display {text : String} {p : FieldPath} (parsed : FieldPath.parse text = .ok p) :
    FieldPath.parse (String.ofList p.display) = .ok p ∧
    ∀ (written : WritePath) (children : List String), p.writable = .ok written →
      (∀ child ∈ children, child ≠ "") →
      FieldPath.parse (String.ofList (children.foldl WritePath.child written).path.display) =
        .ok (children.foldl WritePath.child written).path := by
  have named := (FieldPath.parse_ok.mp parsed).named
  have back {field : FieldPath} (named : field.Named) :
      FieldPath.parse (String.ofList field.display) = .ok field := by
    rw [FieldPath.parse_ok, String.toList_ofList]
    exact pathText_display named
  refine ⟨back named, ?_⟩
  intro written children isWritable nonempty
  apply back
  obtain ⟨target⟩ := p
  cases target with
  | meta_ field => cases isWritable
  | record segments =>
      obtain rfl := Except.ok.inj isWritable
      rw [WritePath.path, FieldPath.Named, children_path]
      intro member
      rcases List.mem_append.mp member with here | here
      · exact named here
      · exact nonempty "" here rfl

theorem FieldPath.parse_display_children :
    FieldPath.parse (String.ofList (["a.b", "\"", "meta"].foldl WritePath.child ⟨["meta"]⟩).path.display) =
      .ok ⟨.record ["meta", "a.b", "\"", "meta"]⟩ :=
  (@FieldPath.parse_display ".meta" ⟨.record ["meta"]⟩ (by decide +kernel)).2 ⟨["meta"]⟩ _ rfl
    (by decide)

end FusionPipeline
