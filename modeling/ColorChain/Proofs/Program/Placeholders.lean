import ColorChain.Proofs.Program.Addresses
import ColorChain.Proofs.Program.Size
import ColorChain.Proofs.Template.Run
import ColorChain.Proofs.Text

/-! What placeholders are left in the text of a program.

A registered definition's template may hold runs of digits behind a `$` that spell no slot number:
the slot contract counts the numbers that are spelled and looks at nothing else. Placing keeps such
runs, and nothing that is written around the templates adds one or ends one, so a program's text
holds exactly the runs that its filters' templates hold and that spell no slot number
(`synthesize_placeholders`). -/
namespace ColorChain

/-! ### Runs of lines -/

namespace Template

/-- A line feed is part of no run and ends one. -/
theorem runs_append_lineFeed (line after : List Char) :
    runs (line ++ '\n' :: after) = runs line ++ runs after := by
  rw [runs_append line (undigited_cons (by decide +kernel) after)]
  have hfeed : '$' ∉ ['\n'] := by decide
  exact congrArg _ (runs_append_of_notMem hfeed after)

/-- The lines of a text have its runs. -/
theorem flatMap_runs_lines (cs : List Char) : (Text.lines cs).flatMap runs = runs cs := by
  have hlined := Text.lined_lines cs
  generalize Text.lines cs = rows at hlined
  induction hlined with
  | nil => rfl
  | last hne h => exact List.flatMap_singleton runs _
  | feed h hreturn hrest ih => rw [List.flatMap_cons, ih, runs_append_lineFeed]
  | returnFeed h hrest ih =>
    have hend : '$' ∉ ['\r', '\n'] := by decide
    rw [List.flatMap_cons, ih, runs_append _ (undigited_cons (by decide +kernel) _)]
    exact congrArg _ (runs_append_of_notMem hend _).symm

/-- Lines in front of a text have runs of their own. -/
theorem runs_unlines_append (lines : List String) (after : List Char) :
    runs ((Shader.unlines lines).toList ++ after) =
      (lines.flatMap fun line => runs line.toList) ++ runs after := by
  induction lines with
  | nil =>
    rw [Shader.unlines]
    rfl
  | cons line rest ih =>
    have hlines : (Shader.unlines (line :: rest)).toList =
        line.toList ++ '\n' :: (Shader.unlines rest).toList := by
      rw [Shader.unlines, List.map_cons, String.join_cons, String.toList_append,
        String.toList_append, List.append_assoc]
      rfl
    rw [hlines, List.append_assoc, List.cons_append, runs_append_lineFeed, ih, List.flatMap_cons,
      List.append_assoc]

theorem flatMap_runs_of_notMem {lines : List String} (h : ∀ line ∈ lines, '$' ∉ line.toList) :
    (lines.flatMap fun line => runs line.toList) = [] :=
  List.flatMap_eq_nil_iff.mpr fun line hline => runs_of_notMem (h line hline)

/-- Lines without a `$` have no runs. -/
theorem runs_unlines_of_notMem {lines : List String} (h : ∀ line ∈ lines, '$' ∉ line.toList)
    (after : List Char) : runs ((Shader.unlines lines).toList ++ after) = runs after := by
  rw [runs_unlines_append, flatMap_runs_of_notMem h, List.nil_append]

end Template

/-! ### Texts without a mark -/

namespace Source

open Template

theorem notMem_toString (n : Nat) : '$' ∉ (toString n).toList := by
  intro h
  rw [toList_toString] at h
  exact absurd (isDigit_of_mem_decimalDigits _ h) (by decide)

theorem notMem_id {d : Definition} (hd : d.fault? = none) : '$' ∉ d.id.toList := by
  intro h
  have hgood := Definition.goodId_of_fault? hd
  simp only [Definition.goodId, Bool.and_eq_true, List.all_eq_true] at hgood
  exact absurd (hgood.2 _ h) (by decide)

theorem notMem_append {s t : String} (hs : '$' ∉ s.toList) (ht : '$' ∉ t.toList) :
    '$' ∉ (s ++ t).toList := by
  rw [String.toList_append, List.mem_append, not_or]
  exact ⟨hs, ht⟩

theorem notMem_component (position : Nat) : '$' ∉ (component position).toList := by
  unfold component
  split
  all_goals exact notMem_of_all rfl rfl

theorem notMem_flag (position : Nat) : '$' ∉ (flag position).toList :=
  notMem_append (notMem_append (notMem_append (notMem_of_all rfl rfl) (notMem_toString _))
    (notMem_of_all rfl rfl)) (notMem_component _)

/-- A text with a number in it. -/
theorem notMem_numbered {front back : String} (hfront : '$' ∉ front.toList) (n : Nat)
    (hback : '$' ∉ back.toList) : '$' ∉ (front ++ toString n ++ back).toList :=
  notMem_append (notMem_append hfront (notMem_toString n)) hback

theorem runs_header (l : Layout) (after : List Char) :
    runs ((header l).toList ++ after) = runs after := by
  refine runs_unlines_of_notMem ?_ after
  simp only [List.forall_mem_cons, List.not_mem_nil, false_implies, implies_true, and_true]
  and_intros
  all_goals first
    | exact notMem_of_all rfl rfl
    | exact notMem_numbered (notMem_of_all rfl rfl) _ (notMem_of_all rfl rfl)

theorem runs_conversions (after : List Char) :
    runs (Shader.conversions.toList ++ after) = runs after := by
  refine runs_unlines_of_notMem ?_ after
  simp only [List.forall_mem_cons, List.not_mem_nil, false_implies, implies_true, and_true]
  and_intros
  all_goals exact notMem_of_all rfl rfl

/-! ### Programs -/

/-- What is written of a filter has the runs that placing its template leaves. -/
theorem runs_block {d : Definition} (hd : d.fault? = none) (position base : Nat)
    (after : List Char) :
    runs ((block position base d).toList ++ after) = strays d.template ++ runs after := by
  have hcomment : '$' ∉ ("    // " ++ toString position ++ ": " ++ d.id).toList :=
    notMem_append (notMem_numbered (notMem_of_all rfl rfl) _ (notMem_of_all rfl rfl)) (notMem_id hd)
  have hguard : '$' ∉ ("    if (" ++ flag position ++ " > 0.5) \x7b").toList :=
    notMem_append (notMem_append (notMem_of_all rfl rfl) (notMem_flag _)) (notMem_of_all rfl rfl)
  have hfront := flatMap_runs_of_notMem
    (List.forall_mem_cons.mpr ⟨hcomment, List.forall_mem_singleton.mpr hguard⟩)
  have hback : (["        color = clamp(color, 0.0, 1.0);", "    \x7d"].flatMap fun line =>
      runs line.toList) = [] :=
    flatMap_runs_of_notMem (List.forall_mem_cons.mpr
      ⟨notMem_of_all rfl rfl, List.forall_mem_singleton.mpr (notMem_of_all rfl rfl)⟩)
  have hindent (line : List Char) :
      runs ("        " ++ String.ofList line).toList = runs line := by
    rw [String.toList_append, runs_append_of_notMem (notMem_of_all rfl rfl), String.toList_ofList]
  rw [block, runs_unlines_append, List.flatMap_append, List.flatMap_append, hfront, hback,
    List.flatMap_map, List.flatMap_map]
  simp only [hindent, flatMap_runs_lines, runs_place, List.nil_append, List.append_nil]

theorem runs_blocks {ds : List Definition} (hds : ∀ d ∈ ds, d.fault? = none) (position base : Nat)
    (after : List Char) :
    runs ((blocks position base ds).toList ++ after) =
      (ds.flatMap fun d => strays d.template) ++ runs after := by
  induction ds generalizing position base with
  | nil => rfl
  | cons d rest ih =>
    obtain ⟨hd, hrest⟩ := List.forall_mem_cons.mp hds
    rw [blocks, String.toList_append, List.append_assoc, runs_block hd, ih hrest,
      List.flatMap_cons, List.append_assoc]

theorem runs_fragmentText {ds : List Definition} (hds : ∀ d ∈ ds, d.fault? = none) :
    runs (fragmentText ds).toList = ds.flatMap fun d => strays d.template := by
  have hfeed (after : List Char) : runs ("\n".toList ++ after) = runs after :=
    runs_append_of_notMem (notMem_of_all rfl rfl) after
  have hopening : ∀ line ∈ ["void main() \x7b", "    vec3 color = hsl2rgb(v_hsl);"],
      '$' ∉ line.toList :=
    List.forall_mem_cons.mpr
      ⟨notMem_of_all rfl rfl, List.forall_mem_singleton.mpr (notMem_of_all rfl rfl)⟩
  have hclosing : ∀ line ∈ ["    outColor = vec4(color, 1.0);", "\x7d"], '$' ∉ line.toList :=
    List.forall_mem_cons.mpr
      ⟨notMem_of_all rfl rfl, List.forall_mem_singleton.mpr (notMem_of_all rfl rfl)⟩
  have hend : runs (Shader.unlines ["    outColor = vec4(color, 1.0);", "\x7d"]).toList = [] := by
    rw [← List.append_nil (String.toList _), runs_unlines_of_notMem hclosing]
    rfl
  simp only [fragmentText, String.toList_append, List.append_assoc]
  rw [runs_header, hfeed, runs_conversions, hfeed, runs_unlines_of_notMem hopening,
    runs_blocks hds, hend, List.append_nil]

/-- What is left of the placeholders of a program's templates. -/
structure Placed (r : Registry) (config : ProgramConfig) (s : Source) : Prop where
  /-- The text's runs are those of the templates that spell no slot number, in filter order. -/
  runs : Template.runs s.fragment.toList =
    s.ids.flatMap fun id => ((r.get? id).map fun d => strays d.template).getD []
  /-- A digit follows some `$` of the text just if one of the templates has such a run. -/
  marked : (∃ before c after, s.fragment.toList = before ++ '$' :: c :: after ∧
      Text.isDecimalDigit c = true) ↔
    ∃ id ∈ s.ids, ∃ d, r.get? id = some d ∧ ∃ digits ∈ Template.runs d.template.toList, Stray digits
  /-- A slot number that is spelled is that of a slot when it is counted from its filter's base. -/
  within : ∀ run ∈ s.layout.filters, ∀ d, r.get? run.id = some d →
    ∀ n ∈ Template.slots d.template, run.base + n < s.layout.slotCount
  limited : s.layout.slotCount ≤ config.maxSlots

end Source

/-! ### Slot numbers -/

namespace Definition

/-- Counting a template's slots takes more than 64 bits just if the greatest number of 64 bits is
among them. -/
theorem le_referenced_iff {template : String} :
    2 ^ 64 ≤ referenced template ↔ 2 ^ 64 - 1 ∈ Template.slots template := by
  constructor
  · intro h
    rcases foldl_countTo_cases (Template.slots template) 0 with hnone | ⟨n, hn, hcount⟩
    · rw [referenced, countTo, hnone] at h
      omega
    · rw [referenced, countTo, hcount] at h
      obtain ⟨digits, -, hspelled, rfl⟩ := Template.mem_slots.mp hn
      have hword : ¬ 2 ^ 64 ≤ ofDecimalDigits digits := fun hlarge => hspelled (.inr hlarge)
      have hlast : ofDecimalDigits digits = 2 ^ 64 - 1 := by omega
      rwa [← hlast]
  · intro h
    have hlt := lt_countTo h
    rw [referenced]
    omega

end Definition

namespace Registry

theorem fault?_of_register {r r' : Registry} {d : Definition} (h : r.register d = .ok r') :
    d.fault? = none := by
  cases hfault : d.fault? with
  | none => rfl
  | some fault =>
    rw [register_of_fault hfault] at h
    cases h

/-- What a row resolves to is registered. -/
theorem get?_of_mem_resolve {r : Registry} {ids : List String} {ds : List Definition}
    (h : r.resolve ids = .ok ds) : ∀ d ∈ ds, r.get? d.id = some d := by
  have hrow := resolve_eq_ok.mp h
  clear h
  induction hrow with
  | nil => simp
  | cons hd _ ih => exact List.forall_mem_cons.mpr ⟨get?_id hd, ih⟩

/-- The run of a filter is as long as its definition says. -/
theorem count_of_mem_filters {r : Registry} {ids : List String} {ds : List Definition}
    (h : r.resolve ids = .ok ds) {run : FilterSlots} (hrun : run ∈ (Layout.ofDefinitions ds).filters)
    {d : Definition} (hd : r.get? run.id = some d) : run.count = d.slotCount := by
  obtain ⟨i, hi⟩ := List.mem_iff_getElem?.mp hrun
  have hat := Layout.getElem?_runs 0 ds i
  rw [Layout.ofDefinitions] at hi
  rw [hi] at hat
  obtain ⟨e, he, hsame⟩ := Option.map_eq_some_iff.mp hat.symm
  cases hsame
  cases hd.symm.trans (get?_of_mem_resolve h e (List.mem_of_getElem? he))
  rfl

/-- A program's text has the runs that its templates leave. -/
theorem runs_of_synthesize {r : Registry} {ids : List String} {config : ProgramConfig}
    {source : Source} (h : r.synthesize ids config = .ok source) :
    Template.runs source.fragment.toList =
      ids.flatMap fun id => ((r.get? id).map fun d => Template.strays d.template).getD [] := by
  obtain ⟨ds, hds, rfl⟩ := synthesize_eq_ok h
  have hrow := resolve_eq_ok.mp hds
  have hvalid : ∀ d ∈ ds, d.fault? = none := fun d hd =>
    r.valid d (mem_of_get? (get?_of_mem_resolve hds d hd))
  refine (Source.runs_fragmentText hvalid).trans ?_
  clear h hds hvalid
  induction hrow with
  | nil => rfl
  | cons hd _ ih =>
    rw [List.flatMap_cons, List.flatMap_cons, ih, hd]
    rfl

end Registry

/-- **What registering and placing leave of placeholders.** A run of digits behind a `$` in the
template of a registered definition spells the number of one of its slots, or it spells none: a
digit of it is none of ASCII, or it is a number of more than 64 bits. Runs that spell none stay in
the text of every program of the definition, and no others do, so a text is free of placeholders
just if none of its templates has such a run. Counted from its filter's base a slot number stays
below the slots of the program, and only the greatest number of 64 bits has no successor when the
slots of a template are counted. -/
theorem synthesize_placeholders (r : Registry) :
    (∀ d r', r.register d = .ok r' → ∀ digits ∈ Template.runs d.template.toList,
      Template.Stray digits ∨ ofDecimalDigits digits < d.slotCount ∧
        d.slotCount = (d.vectorize d.defaults).length) ∧
      (∀ ids config source, r.synthesize ids config = .ok source → source.Placed r config) ∧
      ∀ template, 2 ^ 64 ≤ Definition.referenced template ↔
        2 ^ 64 - 1 ∈ Template.slots template := by
  refine ⟨fun d r' hregister digits hdigits => ?_, fun ids config source hsource => ?_,
    fun _ => Definition.le_referenced_iff⟩
  · have hvalid := Registry.fault?_of_register hregister
    by_cases hstray : Template.Stray digits
    · exact .inl hstray
    · have hslot := Template.mem_slots.mpr ⟨digits, hdigits, hstray, rfl⟩
      exact .inr ⟨Definition.slot_lt hvalid hslot, (Definition.length_vectorize_defaults hvalid).symm⟩
  · have hruns := Registry.runs_of_synthesize hsource
    obtain ⟨hslots, -⟩ := Registry.layout_of_synthesize hsource
    have hids := Registry.ids_of_synthesize hsource
    refine ⟨?_, ?_, fun run hrun d hd n hn => ?_, ?_⟩
    · rw [hids, hruns]
    · rw [← Template.runs_ne_nil_iff, hruns, hids, ne_eq, List.flatMap_eq_nil_iff]
      push Not
      refine exists_congr fun id => and_congr_right fun _ => ?_
      cases r.get? id with
      | none => simp
      | some d => simp [Template.strays]
    · obtain ⟨ds, hds, rfl⟩ := Registry.synthesize_eq_ok hsource
      have hcount := Registry.count_of_mem_filters hds hrun hd
      have hend := Layout.end_le_of_mem_runs hrun
      rw [← Layout.slotCount_ofDefinitions] at hend
      have hslot := Definition.slot_lt (r.valid d (Registry.mem_of_get? hd)) hn
      dsimp only
      omega
    · rw [hslots]
      exact Registry.slotsNeeded_le_of_synthesize hsource

/-- The text of two filters has no placeholder left, neither of the first nor of the second. -/
theorem synthesize_placeholders_twice :
    (∃ r', Registry.empty.register Catalog.posterize = .ok r' ∧
      ∀ digits ∈ Template.runs Catalog.posterize.template.toList,
        Template.Stray digits ∨ ofDecimalDigits digits < 1) ∧
      ∃ source, Registry.synthesize .builtin (List.replicate 2 "posterize") .default = .ok source ∧
        Template.runs source.fragment.toList = [] := by
  have hfault : Catalog.posterize.fault? = none :=
    Catalog.fault?_of_mem_definitions _ (by simp [Catalog.definitions])
  have hget : Registry.get? .builtin "posterize" = some Catalog.posterize := rfl
  have hnone : Template.strays Catalog.posterize.template = [] := by decide +kernel
  obtain ⟨r', hregister, -⟩ := @Registry.register_of_free .empty _ hfault List.not_mem_nil
  obtain ⟨hregistered, -⟩ := synthesize_placeholders .empty
  obtain ⟨-, hplaced, -⟩ := synthesize_placeholders .builtin
  have hneeded := Registry.slotsNeeded_replicate hget 2
  have hlimit : Registry.slotsNeeded .builtin (List.replicate 2 "posterize") ≤
      ProgramConfig.default.maxSlots := by
    rw [hneeded]
    decide
  have hsource := Registry.synthesize_of_resolve (Registry.resolve_replicate hget 2) hlimit
  refine ⟨⟨r', hregister, fun digits hdigits => ?_⟩, _, hsource, ?_⟩
  · exact (hregistered _ r' hregister digits hdigits).imp_right And.left
  · rw [(hplaced _ _ _ hsource).runs, List.flatMap_replicate, hget]
    simp [hnone]

/-- A definition that keeps the slot contract as far as it is counted: its template also refers to a
slot whose number has more than 64 bits. -/
def Definition.overlong : Definition where
  id := "x"
  name := "X"
  controls := [⟨"amount", "Amount", .number 1 ⟨0, 10, 0.05, 2⟩⟩]
  slotCount := 1
  vectorize values := [⟨numberAt values 0, 0, 0, 0⟩]
  kernel := .direct fun color slots => color * (slotAt slots 0).x
  template := "$0 $99999999999999999999"

/-- A definition is registered whose template refers to a slot that it does not have, and the
reference is left in the text of its program. -/
theorem registers_overlong :
    ¬ ((∀ (r r' : Registry) (d : Definition), r.register d = .ok r' →
        ∀ digits ∈ Template.runs d.template.toList, ofDecimalDigits digits < d.slotCount) ∨
      ∀ (r : Registry) (ids : List String) (config : ProgramConfig) (source : Source),
        r.synthesize ids config = .ok source → ∀ before c after,
          source.fragment.toList = before ++ '$' :: c :: after → Text.isDecimalDigit c = false) := by
  have hfault : Definition.overlong.fault? = none := by decide +kernel
  have hruns : Template.runs Definition.overlong.template.toList =
      [['0'], List.replicate 20 '9'] := by decide +kernel
  obtain ⟨r, hregister, hdefinitions, -⟩ := @Registry.register_of_free .empty _ hfault
    List.not_mem_nil
  rintro (hclaim | hclaim)
  · have hlast := hclaim _ r _ hregister (List.replicate 20 '9') (by rw [hruns]; simp)
    exact absurd hlast (by decide +kernel)
  · have hget : r.get? "x" = some .overlong :=
      Registry.get?_of_mem (d := .overlong) (by rw [hdefinitions]; exact List.mem_singleton_self _)
    have hresolve : r.resolve ["x"] = .ok [.overlong] :=
      Registry.resolve_eq_ok.mpr (.cons hget .nil)
    have hneeded : r.slotsNeeded ["x"] = 1 := Registry.slotsNeeded_eq hresolve
    have hlimit : r.slotsNeeded ["x"] ≤ ProgramConfig.default.maxSlots := by
      rw [hneeded]
      decide
    have hsource := Registry.synthesize_of_resolve hresolve hlimit
    have hleft : Template.runs (Source.fragmentText [.overlong]).toList ≠ [] := by
      rw [Registry.runs_of_synthesize hsource, List.flatMap_singleton, hget]
      decide +kernel
    obtain ⟨before, c, after, htext, hc⟩ := Template.runs_ne_nil_iff.mp hleft
    have hnone := hclaim _ _ _ _ hsource before c after htext
    rw [hc] at hnone
    cases hnone

end ColorChain
