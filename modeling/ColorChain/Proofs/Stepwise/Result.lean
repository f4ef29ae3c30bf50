import ColorChain.Proofs.Chain.Admitted
import ColorChain.Stepwise

/-! The record does not change the result.

Every filter of the catalog, evaluated operation by operation, gives what the catalog's own
formulas give (`filter?_result`), and so does a row of filters (`run?_result`). -/
namespace ColorChain.Stepwise

/-! ### Vectors and hues -/

theorem result_ite {α : Type} (p : Prop) [Decidable p] (t u : Traced α) :
    (if p then t else u).result = if p then t.result else u.result :=
  apply_ite Traced.result p t u

theorem result_turn (t : Single) :
    (turn t).result =
      let t := if t.lt 0 then t + 1 else t
      if Binary.lt 1 t then t - 1 else t := by
  simp only [turn, Traced.result_bind, Traced.result_pure, result_ite, result_perform]
  rfl

theorem result_channel (p q t : Single) : (channel p q t).result = Hsl.channel p q t := by
  simp only [channel, Traced.result_bind, Traced.result_pure, result_ite, result_perform, result_turn]
  rfl

theorem result_greatest (saturation lightness : Single) :
    (greatest saturation lightness).result =
      if lightness.lt (Scalar.ratio 1 2) then lightness * (1 + saturation)
      else lightness + saturation - lightness * saturation := by
  simp only [greatest, Traced.result_bind, result_ite, result_perform]
  rfl

theorem result_toRgb (c : Color) : (toRgb c).result = Hsl.toRgb c := by
  simp only [toRgb, Traced.result_bind, Traced.result_pure, result_ite, result_channel, result_greatest]
  rfl

theorem result_sextant (c : Color) (largest range : Single) :
    (sextant c largest range).result = Hsl.sextant c largest range := by
  simp only [sextant, Traced.result_bind, result_ite]
  rfl

theorem result_saturation (largest smallest range lightness : Single) :
    (saturation largest smallest range lightness).result =
      if lightness.lt (Scalar.ratio 1 2) then range / (largest + smallest)
      else range / (2 - largest - smallest) := by
  simp only [saturation, Traced.result_bind, result_ite]
  rfl

theorem result_ofExtremes (c : Color) (largest smallest lightness : Single) :
    (ofExtremes c largest smallest lightness).result =
      if largest.same smallest then ⟨0, 0, lightness⟩
      else
        let range := largest - smallest
        let hue := Hsl.sextant c largest range / 6
        ⟨if hue.lt 0 then hue + 1 else hue,
          (saturation largest smallest range lightness).result, lightness⟩ := by
  simp only [ofExtremes, Traced.result_bind, Traced.result_pure, result_ite, result_sextant]
  rfl

theorem result_ofRgb (c : Color) : (ofRgb c).result = Hsl.ofRgb c := by
  simp only [ofRgb, Traced.result_bind, result_ofExtremes, result_saturation]
  rfl

theorem result_mix (v w : Color) (t : Single) : (mix v w t).result = Vector.mix v w t := rfl

/-! ### Filters -/

/-- The evaluation gives the slots and the result of its definition. -/
structure Evaluation.Faithful (e : Evaluation) : Prop where
  vectorize (values : List ControlValue) :
    (e.vectorize values).result = e.definition.vectorize values
  kernel (color : Color) (slots : List Slot) :
    (e.kernel color slots).result = e.definition.apply color slots

theorem result_combineHsl {combine : Single → Single → Operation} {f : Single → Single → Single}
    (h : ∀ x y, (combine x y).result = f x y) (color : Color) (slot : Slot) :
    (combineHsl combine color slot).result = Catalog.combineHsl f color slot := by
  simp only [combineHsl, Traced.result_bind, result_toRgb, result_ofRgb, result_perform, h]
  rfl

theorem result_overlay (a b : Single) :
    (overlay a b).result = if a.lt 0.5 then 2 * a * b else 1 - 2 * (1 - a) * (1 - b) := by
  rw [overlay, result_ite]
  rfl

theorem result_dodge (a b : Single) :
    (dodge a b).result = if Binary.le 1 b then 1 else (a / (1 - b)).lower 1 := by
  rw [dodge, result_ite]
  rfl

theorem result_burn (a b : Single) :
    (burn a b).result = if b.le 0 then 0 else (1 - (1 - a) / b).upper 0 := by
  rw [burn, result_ite]
  rfl

/-- The modes are those of the catalog, one by one. -/
theorem result_modes :
    List.Forall₂ (fun (b : Blend) mode => ∀ x y, (mode x y).result = b.mode x y)
      Catalog.blends modes := by
  unfold Catalog.blends modes
  refine .cons (fun _ _ => rfl) <| .cons (fun _ _ => rfl) <| .cons (fun _ _ => rfl) <|
    .cons (fun _ _ => rfl) <| .cons (fun _ _ => rfl) <| .cons result_overlay <|
    .cons (fun _ _ => rfl) <| .cons result_dodge <| .cons result_burn <|
    .cons (fun _ _ => rfl) <| .cons (fun _ _ => rfl) <| .cons (fun _ _ => rfl) <|
    .cons (fun _ _ => rfl) .nil

theorem blend_faithful {b : Blend} {mode : Single → Single → Traced Single}
    (h : ∀ x y, (mode x y).result = b.mode x y) : (blend b mode).Faithful where
  vectorize _ := rfl
  kernel color slots := by
    simp only [blend, Traced.result_bind, result_mix, Vec3.result_traverse₂, h]
    rfl

theorem posterize_faithful : posterize.Faithful := ⟨fun _ => rfl, fun _ _ => rfl⟩

theorem brightnessContrast_faithful : brightnessContrast.Faithful := ⟨fun _ => rfl, fun _ _ => rfl⟩

theorem hslAdjust_faithful : hslAdjust.Faithful :=
  ⟨fun _ => rfl, fun _ _ => result_combineHsl (fun _ _ => rfl) _ _⟩

theorem hslMultiply_faithful : hslMultiply.Faithful :=
  ⟨fun _ => rfl, fun _ _ => result_combineHsl (fun _ _ => rfl) _ _⟩

/-- A built-in filter is one of the direct ones, or a blend with a mode that is its own. -/
theorem mem_evaluations {e : Evaluation} (he : e ∈ evaluations) :
    e = posterize ∨ e = brightnessContrast ∨ e = hslAdjust ∨ e = hslMultiply ∨
      ∃ b mode, mode ∈ modes ∧ (∀ x y, (mode x y).result = b.mode x y) ∧ e = blend b mode := by
  rcases List.mem_append.mp he with he | he
  · simp only [List.mem_cons, List.not_mem_nil, or_false] at he
    rcases he with rfl | rfl | rfl | rfl <;> simp
  · rw [← List.map_uncurry_zip_eq_zipWith] at he
    obtain ⟨⟨b, mode⟩, hmem, rfl⟩ := List.mem_map.mp he
    refine .inr (.inr (.inr (.inr ⟨b, mode, (List.of_mem_zip hmem).2, ?_, rfl⟩)))
    exact (List.forall₂_iff_zip.mp result_modes).2 hmem

theorem evaluations_faithful : ∀ e ∈ evaluations, e.Faithful := by
  intro e he
  rcases mem_evaluations he with rfl | rfl | rfl | rfl | ⟨b, mode, -, hmode, rfl⟩
  · exact posterize_faithful
  · exact brightnessContrast_faithful
  · exact hslAdjust_faithful
  · exact hslMultiply_faithful
  · exact blend_faithful hmode

/-! ### Rows of filters -/

/-- A filter of the built-in registry has an evaluation. -/
theorem filter?_of_registered {f : Filter} (h : Registry.builtin.get? f.id = some f.definition) :
    ∃ e ∈ evaluations, e.definition = f.definition ∧ ∀ color, filter? f color = some (do
      let slots ← e.vectorize f.values
      e.kernel color slots) := by
  have hfind : Catalog.definitions.find? (fun d => d.id == f.id) = some f.definition := h
  rw [← definitions_evaluations, List.find?_map, Option.map_eq_some_iff] at hfind
  obtain ⟨e, hfind, hdefinition⟩ := hfind
  refine ⟨e, List.mem_of_find?_eq_some hfind, hdefinition, fun color => ?_⟩
  unfold filter?
  exact congrArg (Option.map _) hfind

theorem filter?_result {f : Filter} (h : Registry.builtin.get? f.id = some f.definition)
    {color : Color} {t : Traced Color} (ht : filter? f color = some t) :
    t.result = f.apply color := by
  obtain ⟨e, he, hdefinition, heval⟩ := filter?_of_registered h
  have hfaithful := evaluations_faithful e he
  cases (heval color).symm.trans ht
  rw [Traced.result_bind, hfaithful.vectorize, hfaithful.kernel, hdefinition]
  rfl

theorem run?_cons {f : Filter} {rest : List Filter} {color : Color} {first others : Traced Color}
    (hfirst : filter? f color = some first)
    (hothers : run? rest (Vector.unitClamp first.result) = some others) :
    run? (f :: rest) color = some (first >>= fun _ => others) := by
  rw [run?, hfirst, Option.bind_eq_bind, Option.bind_some, hothers]
  rfl

/-- Filters one after the other, whatever their values are. -/
theorem run?_result {fs : List Filter}
    (hfs : ∀ f ∈ fs, Registry.builtin.get? f.id = some f.definition) (color : Color) :
    ∃ t, run? fs color = some t ∧
      t.result = fs.foldl (fun color f => Vector.unitClamp (f.apply color)) color := by
  induction fs generalizing color with
  | nil => exact ⟨pure color, rfl, rfl⟩
  | cons f rest ih =>
    obtain ⟨hf, hrest⟩ := List.forall_mem_cons.mp hfs
    obtain ⟨e, -, -, heval⟩ := filter?_of_registered hf
    have hresult := filter?_result hf (heval color)
    obtain ⟨others, hothers, hfold⟩ := ih hrest (Vector.unitClamp (f.apply color))
    rw [← hresult] at hothers
    exact ⟨_, run?_cons (heval color) hothers, hfold⟩

end ColorChain.Stepwise
