import ColorChain.Proofs.Decimal.Numeral
import ColorChain.Proofs.Program.Layout
import ColorChain.Proofs.Text

/-! What the text of a program refers to.

A template may refer to the slots that its definition declares and to no others, and placing it
shifts every reference by the base of the filter's run. The text of a program is the declarations
of its arrays, which are as long as all runs together need, and then the statements of each filter
(`Source.Parts`): under a guard on the filter's flag, the lines of its placed template
(`Source.Written`). So a generated program reads no slot but its filters' own, each filter its own
run, and no two filters the same flag (`synthesize_addresses`). -/
namespace ColorChain

/-! ### Templates -/

namespace Template

/-- The global slot that a piece stands for when its template is placed at `base`. -/
def Piece.address? (base : Nat) (p : Piece) : Option Nat := p.slot?.map (base + ·)

/-- A piece of a template that is placed at `base`: an element of the parameter array for a slot,
and anything else as it is. -/
def Piece.addressed (base : Nat) (p : Piece) : List Char :=
  match p.address? base with
  | some k => ("_p[" ++ toString k ++ "]").toList
  | none => p.spelling

theorem place_eq_addressed (base : Nat) (p : Piece) : p.place base = p.addressed base := by
  cases p with
  | text c => rfl
  | placeholder digits =>
    rw [Piece.place, Piece.addressed, Piece.address?, Piece.slot?]
    cases slotNumber? digits with
    | none => rfl
    | some n =>
      simp only [Option.map_some, reference, paramArray, String.toList_append, toList_toString,
        List.append_assoc]
      rfl

/-- Placing a template puts an element of the parameter array for each slot and leaves the rest as
it is. -/
theorem toList_place (template : String) (base : Nat) :
    (place template base).toList =
      (pieces template.toList).flatMap (Piece.addressed base) := by
  rw [place, String.toList_ofList, funext (place_eq_addressed base)]

/-- The references of a valid definition stay within its run. -/
theorem address_within {d : Definition} (hd : d.fault? = none) {p : Piece}
    (hp : p ∈ pieces d.template.toList) {base k : Nat} (hk : p.address? base = some k) :
    base ≤ k ∧ k < base + d.slotCount := by
  obtain ⟨n, hn, rfl⟩ := Option.map_eq_some_iff.mp hk
  have hslot : n ∈ slots d.template := List.mem_filterMap.mpr ⟨p, hp, hn⟩
  have hlt := Definition.slot_lt hd hslot
  omega

end Template

/-! ### Texts -/

/-- A text with another one somewhere in it. -/
def Shader.Occurs (part text : String) : Prop := ∃ before after, text = before ++ part ++ after

namespace Shader

theorem Occurs.append_right {part text : String} (h : Occurs part text) (back : String) :
    Occurs part (text ++ back) := by
  obtain ⟨before, after, rfl⟩ := h
  exact ⟨before, after ++ back, by simp only [String.append_assoc]⟩

theorem occurs_unlines {line : String} {lines : List String} (h : line ∈ lines) :
    Occurs (line ++ "\n") (unlines lines) := by
  obtain ⟨before, after, rfl⟩ := List.append_of_mem h
  refine ⟨unlines before, unlines after, ?_⟩
  rw [unlines, List.map_append, String.join_append, List.map_cons, String.join_cons,
    ← String.append_assoc]
  rfl

end Shader

namespace Source

/-- A fragment text in its parts: the declarations, and the statements of each filter. -/
structure Parts where
  declarations : String
  statements : List String

/-- The declarations, and a main function that takes the colour of the vertices through the
statements of the filters. -/
def Parts.text (p : Parts) : String :=
  p.declarations ++ "void main() \x7b\n    vec3 color = hsl2rgb(v_hsl);\n" ++
    String.join p.statements ++ "    outColor = vec4(color, 1.0);\n\x7d\n"

/-! ### Declarations -/

/-- The text declares the arrays of a layout, and the name that templates have for the first. -/
structure Declares (l : Layout) (text : String) : Prop where
  params : Shader.Occurs ("    vec4 _params[" ++ toString l.paramLength ++ "];" ++ "\n") text
  visible : Shader.Occurs ("    vec4 _visible[" ++ toString l.visibleLength ++ "];" ++ "\n") text
  name : Shader.Occurs ("#define _p filter_params._params" ++ "\n") text

theorem Declares.append_right {l : Layout} {text : String} (h : Declares l text) (back : String) :
    Declares l (text ++ back) :=
  ⟨h.params.append_right _, h.visible.append_right _, h.name.append_right _⟩

theorem declares_header (l : Layout) : Declares l (header l) where
  params := Shader.occurs_unlines (.tail _ (.tail _ (.tail _ (.tail _ (.tail _ (.head _))))))
  visible := Shader.occurs_unlines
    (.tail _ (.tail _ (.tail _ (.tail _ (.tail _ (.tail _ (.head _)))))))
  name := Shader.occurs_unlines (.tail _ (.tail _ (.tail _ (.tail _ (.tail _ (.tail _ (.tail _
    (.tail _ (.tail _ (.head _))))))))))

/-! ### Flags -/

/-- The text reads the flag of the filter at a position: a component of a word with four. -/
def Flagged (position : Nat) (text : String) : Prop :=
  ∃ component, ["x", "y", "z", "w"][position % 4]? = some component ∧
    text = "filter_params._visible[" ++ toString (position / 4) ++ "]." ++ component

theorem component_mod (i : Nat) : component (i % 4) = component i := by
  rw [component, component, Nat.mod_mod]

theorem component_inj {i j : Nat} (h : component i = component j) : i % 4 = j % 4 := by
  have four : ∀ m < 4, ∀ n < 4, component m = component n → m = n := by decide
  refine four _ (Nat.mod_lt i (by decide)) _ (Nat.mod_lt j (by decide)) ?_
  rw [component_mod, component_mod, h]

theorem length_component (i : Nat) : (component i).toList.length = 1 := by
  have four : ∀ m < 4, (component m).toList.length = 1 := by decide
  rw [← component_mod]
  exact four _ (Nat.mod_lt i (by decide))

/-- Two filters do not read the same flag. -/
theorem flag_inj {i j : Nat} (h : flag i = flag j) : i = j := by
  have htext := congrArg String.toList h
  unfold flag at htext
  simp only [String.toList_append] at htext
  have hlength : (component i).toList.length = (component j).toList.length := by
    rw [length_component, length_component]
  obtain ⟨hfront, hcomponent⟩ := List.append_inj' htext hlength
  have hword := toList_toString_inj (List.append_cancel_left (List.append_cancel_right hfront))
  have hplace := component_inj (String.toList_inj.mp hcomponent)
  omega

theorem flagged_flag (position : Nat) : Flagged position (flag position) := by
  have four : ∀ m < 4, ["x", "y", "z", "w"][m]? = some (component m) := by decide
  refine ⟨component position, ?_, rfl⟩
  rw [four _ (Nat.mod_lt position (by decide)), component_mod]

theorem Flagged.eq_flag {position : Nat} {text : String} (h : Flagged position text) :
    text = flag position := by
  obtain ⟨component, hcomponent, rfl⟩ := h
  obtain ⟨_, hcomponent', heq⟩ := flagged_flag position
  rw [hcomponent] at hcomponent'
  cases hcomponent'
  exact heq.symm

/-! ### Statements -/

/-- The text is the statements of the filter at a position, its slots counted from `base`: after a
comment and under a guard on the filter's flag, the lines of its template with elements of the
parameter array for slots, and a clamp. -/
def Written (position base : Nat) (d : Definition) (text : String) : Prop :=
  ∃ flag rows, Flagged position flag ∧
    Text.Lined ((Template.pieces d.template.toList).flatMap (Template.Piece.addressed base)) rows ∧
    text = ("    // " ++ toString position ++ ": " ++ d.id ++ "\n") ++
      ("    if (" ++ flag ++ " > 0.5) \x7b\n") ++
      String.join (rows.map fun row => "        " ++ String.ofList row ++ "\n") ++
      "        color = clamp(color, 0.0, 1.0);\n    \x7d\n"

theorem written_block (position base : Nat) (d : Definition) :
    Written position base d (block position base d) := by
  refine ⟨flag position, Text.lines (Template.place d.template base).toList,
    flagged_flag position, ?_, ?_⟩
  · rw [← Template.toList_place]
    exact Text.lined_lines _
  · simp [block, Shader.unlines, String.append_assoc, Function.comp_def]

/-- The statements of a row of filters are those of each, with its position and its base. -/
theorem exists_statements (ds : List Definition) (position base : Nat) :
    ∃ statements, blocks position base ds = String.join statements ∧
      statements.length = ds.length ∧ ∀ i d, ds[i]? = some d → ∃ text,
        statements[i]? = some text ∧
          Written (position + i) (base + ((ds.take i).map Definition.slotCount).sum) d text := by
  induction ds generalizing position base with
  | nil => exact ⟨[], rfl, rfl, fun i d h => by cases h⟩
  | cons e rest ih =>
    obtain ⟨statements, hjoin, hlength, hwritten⟩ := ih (position + 1) (base + e.slotCount)
    refine ⟨block position base e :: statements, ?_, ?_, fun i d h => ?_⟩
    · rw [blocks, hjoin, String.join_cons]
    · rw [List.length_cons, List.length_cons, hlength]
    · cases i with
      | zero =>
        cases h
        exact ⟨_, rfl, written_block position base e⟩
      | succ i =>
        obtain ⟨text, htext, hrest⟩ := hwritten i d h
        refine ⟨text, htext, ?_⟩
        rw [List.take_succ_cons, List.map_cons, List.sum_cons, ← Nat.add_assoc base,
          Nat.add_comm i 1, ← Nat.add_assoc position]
        exact hrest

/-! ### Programs -/

/-- What the statements of the filter at a position refer to, its slots counted from `base`. -/
structure Refers (s : Source) (position base : Nat) (d : Definition) (text : String) : Prop where
  run : s.layout.filters[position]? = some ⟨d.id, base, d.slotCount⟩
  written : Written position base d text
  /-- Every slot that the text refers to is one of the run. -/
  slots : ∀ p ∈ Template.pieces d.template.toList, ∀ k, p.address? base = some k →
    base ≤ k ∧ k < base + d.slotCount ∧ k < s.layout.paramLength
  word : position / 4 < s.layout.visibleLength

/-- A program in parts that keeps to its arrays, and every filter of it to its own run and flag. -/
structure Addressed (r : Registry) (s : Source) (parts : Parts) : Prop where
  slotCount : s.layout.slotCount = r.slotsNeeded s.ids
  filterCount : s.layout.filterCount = s.ids.length
  /-- The runs are the slots in order, every one once. -/
  runs : s.layout.filters.flatMap FilterSlots.indexes = List.range s.layout.slotCount
  text : s.fragment = parts.text
  declares : Declares s.layout parts.declarations
  length : parts.statements.length = s.ids.length
  /-- A filter's run starts behind the slots that the filters before it need. -/
  filters : ∀ i id d, s.ids[i]? = some id → r.get? id = some d → ∃ text,
    parts.statements[i]? = some text ∧ s.Refers i (r.slotsNeeded (s.ids.take i)) d text
  flags : ∀ i j flag, Flagged i flag → Flagged j flag → i = j

theorem refers_of_written {ids : List String} {ds : List Definition} {i : Nat} {d : Definition}
    {text : String} (hd : d.fault? = none) (h : ds[i]? = some d)
    (hwritten : Written i ((ds.take i).map Definition.slotCount).sum d text) :
    (⟨ids, .ofDefinitions ds, fragmentText ds⟩ : Source).Refers i
      ((ds.take i).map Definition.slotCount).sum d text := by
  have hrun := Layout.getElem?_runs 0 ds i
  rw [h, Option.map_some, Nat.zero_add] at hrun
  have hposition : i < ds.length := (List.getElem?_eq_some_iff.mp h).1
  refine ⟨hrun, hwritten, fun p hp k hk => ?_, ?_⟩
  · obtain ⟨hlow, hhigh⟩ := Template.address_within hd hp hk
    have hend := Layout.end_le_of_mem_runs (List.mem_of_getElem? hrun)
    have hcount := Layout.slotCount_ofDefinitions ds
    refine ⟨hlow, hhigh, ?_⟩
    dsimp only [Layout.paramLength] at hend ⊢
    omega
  · have hcount := Layout.filterCount_ofDefinitions ds
    dsimp only [Layout.visibleLength]
    omega

/-- The text of a program has its parts in order. -/
theorem fragmentText_eq {ds : List Definition} {statements : List String}
    (h : blocks 0 0 ds = String.join statements) : fragmentText ds =
      Parts.text ⟨header (.ofDefinitions ds) ++ "\n" ++ Shader.conversions ++ "\n", statements⟩ := by
  have hfront : Shader.unlines ["void main() \x7b", "    vec3 color = hsl2rgb(v_hsl);"] =
      "void main() \x7b\n    vec3 color = hsl2rgb(v_hsl);\n" := by decide +kernel
  have hback : Shader.unlines ["    outColor = vec4(color, 1.0);", "\x7d"] =
      "    outColor = vec4(color, 1.0);\n\x7d\n" := by decide +kernel
  rw [fragmentText, Parts.text, h, hfront, hback]

theorem addressed_fragmentText {r : Registry} {ids : List String} {ds : List Definition}
    (h : r.resolve ids = .ok ds) :
    ∃ parts, (⟨ids, .ofDefinitions ds, fragmentText ds⟩ : Source).Addressed r parts := by
  obtain ⟨statements, hjoin, hlength, hstatements⟩ := exists_statements ds 0 0
  have hids : ids.length = ds.length := (Registry.resolve_eq_ok.mp h).length_eq
  refine ⟨_, ?_, ?_, Layout.flatMap_indexes ds, fragmentText_eq hjoin,
    (((declares_header _).append_right _).append_right _).append_right _, ?_,
    fun i id d hid hd => ?_, fun i j flag hi hj => flag_inj (hi.eq_flag.symm.trans hj.eq_flag)⟩
  · rw [Registry.slotsNeeded_eq h]
    exact Layout.slotCount_ofDefinitions ds
  · rw [hids]
    exact Layout.filterCount_ofDefinitions ds
  · rw [hlength, hids]
  · have hget : ds[i]? = some d := by
      rw [Registry.getElem?_of_resolve h, hid, Option.bind_some, hd]
    obtain ⟨text, htext, hwritten⟩ := hstatements i d hget
    rw [Nat.zero_add, Nat.zero_add] at hwritten
    refine ⟨text, htext, ?_⟩
    rw [Registry.slotsNeeded_eq (Registry.resolve_take h i)]
    exact refers_of_written (r.valid d (Registry.mem_of_get? hd)) hget hwritten

end Source

/-- **A program refers to its own slots.** Of any row of ids, the first that is not registered is
reported, and otherwise the slots needed if they are more than allowed. In every other case there
is a program, and its runs follow one another without a gap. Its text is its declarations and the
statements of each filter, which are the filter's template placed at the base of its run, under a
guard on its flag. They refer to no slot outside that run, no slot or flag lies outside the arrays
declared, and every filter has a flag of its own. -/
theorem synthesize_addresses (r : Registry) (ids : List String) (config : ProgramConfig) :
    (∀ before id after, ids = before ++ id :: after → (∀ x ∈ before, x ∈ r.ids) → id ∉ r.ids →
        r.synthesize ids config = .error (.unknownFilter id)) ∧
      ((∀ id ∈ ids, id ∈ r.ids) → config.maxSlots < r.slotsNeeded ids →
        r.synthesize ids config = .error (.tooManySlots (r.slotsNeeded ids) config.maxSlots)) ∧
      ((∀ id ∈ ids, id ∈ r.ids) → r.slotsNeeded ids ≤ config.maxSlots →
        ∃ source parts, r.synthesize ids config = .ok source ∧ source.ids = ids ∧
          source.Addressed r parts) := by
  have hresolve (h : ∀ id ∈ ids, id ∈ r.ids) : ∃ ds, r.resolve ids = .ok ds :=
    Registry.exists_resolve fun id hid => Registry.isSome_get?_iff.mpr (h id hid)
  have hcount {ds : List Definition} (hds : r.resolve ids = .ok ds) :
      (Layout.ofDefinitions ds).slotCount = r.slotsNeeded ids :=
    (Layout.slotCount_ofDefinitions ds).trans (Registry.slotsNeeded_eq hds).symm
  refine ⟨fun before id after hids hbefore hid => ?_, fun hids hmany => ?_, fun hids hfew => ?_⟩
  · have hfirst : r.resolve (before ++ id :: after) = .error (.unknownFilter id) :=
      Registry.resolve_unknown (fun x hx => Registry.isSome_get?_iff.mpr (hbefore x hx))
        (Option.not_isSome_iff_eq_none.mp (mt Registry.isSome_get?_iff.mp hid))
    rw [hids, Registry.synthesize, hfirst]
    rfl
  · obtain ⟨ds, hds⟩ := hresolve hids
    rw [Registry.synthesize, hds, ← hcount hds]
    rw [← hcount hds] at hmany
    exact if_pos hmany
  · obtain ⟨ds, hds⟩ := hresolve hids
    obtain ⟨parts, haddressed⟩ := Source.addressed_fragmentText hds
    refine ⟨⟨ids, .ofDefinitions ds, Source.fragmentText ds⟩, parts, ?_, rfl, haddressed⟩
    rw [Registry.synthesize, hds]
    rw [← hcount hds] at hfew
    exact if_neg (Nat.not_lt.mpr hfew)

/-- A filter that occurs twice has two runs, and a limit of two slots is too low for three. -/
theorem synthesize_addresses_twice :
    let ids := ["posterize", "blend_screen", "posterize"]
    (∃ (source : Source) (parts : Source.Parts) (text : String),
      Registry.synthesize .builtin ids .default = .ok source ∧ source.ids = ids ∧
      source.fragment = parts.text ∧ parts.statements[2]? = some text ∧
      source.Refers 2 2 Catalog.posterize text) ∧
      Registry.synthesize .builtin ids ⟨none, "", 2⟩ = .error (.tooManySlots 3 2) ∧
      Registry.synthesize .builtin ("posterize" :: "plaid" :: ids) .default =
        .error (.unknownFilter "plaid") := by
  intro ids
  have hids : ∀ id ∈ ids, id ∈ Registry.ids .builtin := by decide +kernel
  have hneeded : Registry.slotsNeeded .builtin ids = 3 := by decide +kernel
  have hbefore : Registry.slotsNeeded .builtin (ids.take 2) = 2 := by decide +kernel
  obtain ⟨-, -, hprogram⟩ := synthesize_addresses .builtin ids .default
  obtain ⟨-, hmany, -⟩ := synthesize_addresses .builtin ids ⟨none, "", 2⟩
  obtain ⟨hunknown, -, -⟩ := synthesize_addresses .builtin ("posterize" :: "plaid" :: ids) .default
  obtain ⟨source, parts, hsource, hsame, haddressed⟩ := hprogram hids (by rw [hneeded]; decide)
  obtain ⟨text, htext, hrefers⟩ :=
    haddressed.filters 2 "posterize" Catalog.posterize (by rw [hsame]; rfl) rfl
  rw [hsame, hbefore] at hrefers
  refine ⟨⟨source, parts, text, hsource, hsame, haddressed.text, htext, hrefers⟩, ?_, ?_⟩
  · rw [← hneeded]
    exact hmany hids (by rw [hneeded]; decide)
  · exact hunknown ["posterize"] "plaid" ids rfl (by decide +kernel) (by decide +kernel)

end ColorChain
