import ColorChain.Proofs.Program.Measure

/-! How large a uniform block may be.

A program's block has a word for each parameter slot and one for every four filters, and only the
slots are limited. A filter with slots uses the limit up, so a row of such filters is short and its
block small; a filter without slots uses up nothing. So the limit alone bounds no block, and how
large a block is also depends on the number of filters without slots (`size_limited`). -/
namespace ColorChain

namespace Registry

/-- How many ids of a row are those of definitions without slots. -/
def slotless (r : Registry) (ids : List String) : Nat :=
  ids.countP fun id => (r.get? id).any fun d => d.slotCount = 0

variable {r : Registry} {ids : List String} {ds : List Definition} {config : ProgramConfig}
  {source : Source}

/-- A row has a program when it resolves and needs no more slots than are allowed. -/
theorem synthesize_of_resolve (h : r.resolve ids = .ok ds)
    (hlimit : r.slotsNeeded ids ≤ config.maxSlots) :
    r.synthesize ids config = .ok ⟨ids, Layout.ofDefinitions ds, Source.fragmentText ds⟩ := by
  rw [slotsNeeded_eq h, ← Layout.slotCount_ofDefinitions] at hlimit
  rw [synthesize, h]
  exact if_neg (Nat.not_lt.mpr hlimit)

/-- A program has no more slots than its configuration allows. -/
theorem slotsNeeded_le_of_synthesize (h : r.synthesize ids config = .ok source) :
    r.slotsNeeded ids ≤ config.maxSlots := by
  obtain ⟨ds, hds, hlimit⟩ := Outcome.bind_eq_ok.mp h
  rw [slotsNeeded_eq hds, ← Layout.slotCount_ofDefinitions]
  dsimp only at hlimit
  split at hlimit
  · cases hlimit
  · next hfew => exact Nat.not_lt.mp hfew

theorem byteSize_of_synthesize (h : r.synthesize ids config = .ok source) :
    source.layout.byteSize =
      (max (r.slotsNeeded ids) 1 + max ((ids.length + 3) / 4) 1) * 16 := by
  obtain ⟨hslots, hfilters⟩ := layout_of_synthesize h
  rw [Layout.byteSize, Layout.paramLength, Layout.visibleLength, hslots, hfilters]

/-! ### Filters without slots -/

/-- Every filter needs a slot or is one without slots. -/
theorem length_le_slotsNeeded (h : r.resolve ids = .ok ds) :
    ids.length ≤ r.slotsNeeded ids + r.slotless ids := by
  have hds := resolve_eq_ok.mp h
  clear h
  unfold slotsNeeded slotless
  induction hds with
  | nil => exact Nat.le_refl 0
  | @cons id d ids ds hd _ ih =>
    rw [List.length_cons, List.map_cons, List.sum_cons, List.countP_cons, hd]
    by_cases hnone : d.slotCount = 0
    · simp only [Option.any_some, hnone, decide_true, if_true]
      omega
    · have hsome : 1 ≤ d.slotCount := Nat.one_le_iff_ne_zero.mpr hnone
      simp only [Option.map_some, Option.getD_some]
      omega

/-- Where every definition has slots there are no filters without. -/
theorem slotless_eq_zero (h : ∀ d ∈ r.definitions, d.slotCount ≠ 0) : r.slotless ids = 0 := by
  rw [slotless, List.countP_eq_zero]
  intro id _ hany
  obtain ⟨d, hd, hnone⟩ := (Option.any_eq_true _ _).mp hany
  exact h d (mem_of_get? hd) (of_decide_eq_true hnone)

/-! ### Rows of one filter -/

variable {id : String} {d : Definition}

theorem resolve_replicate (h : r.get? id = some d) (n : Nat) :
    r.resolve (List.replicate n id) = .ok (List.replicate n d) := by
  rw [resolve_eq_ok]
  induction n with
  | zero => exact .nil
  | succ n ih => exact .cons h ih

theorem slotsNeeded_replicate (h : r.get? id = some d) (n : Nat) :
    r.slotsNeeded (List.replicate n id) = n * d.slotCount := by
  rw [slotsNeeded_eq (resolve_replicate h n), List.map_replicate, List.sum_replicate_nat]

end Registry

/-- **The slot limit bounds a block up to its filters without slots.** A program that the default
configuration allows has at most 256 slots, and its block has at most 320 words and one more for
every four filters without slots. So the block is far below 16 KiB where every definition has
slots, and it stays within them as long as at most 2816 filters have none. -/
theorem size_limited (r : Registry) (ids : List String) (source : Source)
    (h : r.synthesize ids .default = .ok source) :
    source.layout.byteSize =
        (max (r.slotsNeeded ids) 1 + max ((ids.length + 3) / 4) 1) * 16 ∧
      r.slotsNeeded ids ≤ 256 ∧
      source.layout.byteSize ≤ (320 + (r.slotless ids + 3) / 4) * 16 ∧
      ((∀ d ∈ r.definitions, d.slotCount ≠ 0) → source.layout.byteSize ≤ 5120) ∧
      (r.slotless ids ≤ 2816 → source.layout.byteSize ≤ 16384) := by
  have hsize := Registry.byteSize_of_synthesize h
  have hslots : r.slotsNeeded ids ≤ 256 := Registry.slotsNeeded_le_of_synthesize h
  obtain ⟨ds, hds, -⟩ := Registry.synthesize_eq_ok h
  have hlength := Registry.length_le_slotsNeeded hds
  have hbound : source.layout.byteSize ≤ (320 + (r.slotless ids + 3) / 4) * 16 := by
    rw [hsize]
    omega
  refine ⟨hsize, hslots, hbound, fun hall => ?_, fun hfew => ?_⟩
  · rw [Registry.slotless_eq_zero hall] at hbound
    omega
  · omega

/-- As many filters as there may be slots, every one with a slot of its own. -/
theorem size_limited_full :
    ∃ source, Registry.synthesize .builtin (List.replicate 256 "posterize") .default = .ok source ∧
      source.layout.byteSize = 5120 := by
  have hget : Registry.get? .builtin "posterize" = some Catalog.posterize := rfl
  have hslots := Registry.slotsNeeded_replicate hget 256
  have hlimit : Registry.slotsNeeded .builtin (List.replicate 256 "posterize") ≤
      ProgramConfig.default.maxSlots := by
    rw [hslots]
    decide
  have hsource := Registry.synthesize_of_resolve (Registry.resolve_replicate hget 256) hlimit
  obtain ⟨hsize, -⟩ := size_limited .builtin _ _ hsource
  refine ⟨_, hsource, ?_⟩
  rw [hsize, hslots, List.length_replicate]
  rfl

/-- A definition that needs no slots. -/
def Definition.plain : Definition where
  id := "plain"
  name := "Plain"
  controls := []
  slotCount := 0
  vectorize _ := []
  kernel := .direct fun color _ => color
  template := "color = color;"

/-- So many filters without slots are allowed that their flags alone are more than 16 KiB. -/
theorem size_unlimited :
    ¬ ∀ (ds : List Definition) (r : Registry) (ids : List String) (source : Source),
      ds.foldlM Registry.register .empty = .ok r → r.synthesize ids .default = .ok source →
        source.layout.byteSize ≤ 16384 := by
  intro hclaim
  have hfault : Definition.plain.fault? = none := by decide +kernel
  obtain ⟨r, hregister, hdefinitions, -⟩ := @Registry.register_of_free .empty _ hfault (by decide)
  have hrow : [Definition.plain].foldlM Registry.register .empty = .ok r := by
    rw [List.foldlM_cons, hregister]
    rfl
  have hget : r.get? "plain" = some .plain :=
    Registry.get?_of_mem (d := .plain) (by rw [hdefinitions]; exact List.mem_singleton_self _)
  have hslots := Registry.slotsNeeded_replicate hget 4093
  have hlimit : r.slotsNeeded (List.replicate 4093 "plain") ≤ ProgramConfig.default.maxSlots := by
    rw [hslots]
    exact Nat.zero_le _
  have hsource := Registry.synthesize_of_resolve (Registry.resolve_replicate hget 4093) hlimit
  have hsize := hclaim _ r _ _ hrow hsource
  rw [Registry.byteSize_of_synthesize hsource, hslots, List.length_replicate] at hsize
  exact absurd hsize (by decide)

end ColorChain
