import ColorChain.Proofs.Control.Settled
import ColorChain.Proofs.Saved.Agreement

/-! Saving a chain again changes nothing.

What is written of a chain may be less than the chain holds: numbers are rounded to the places of
their controls and colours to bytes. But a chain that was read back writes the same texts as the
one that it was read from, in either form (`Chain.read_alike`), so nothing more is lost by the
next writing. -/
namespace ColorChain

/-- All controls of the registry are modest. -/
def Registry.Modest (r : Registry) : Prop :=
  ∀ d ∈ r.definitions, ∀ control ∈ d.controls, control.Modest

theorem Registry.Modest.moderate {r : Registry} (hr : r.Modest) : r.Moderate :=
  fun d hd control hcontrol => (hr d hd control hcontrol).moderate

theorem Registry.modest_builtin : Registry.builtin.Modest := Catalog.modest

/-! ### Filters -/

/-- A sound filter whose values its controls keep. -/
def Filter.Settled (r : Registry) (f : Filter) : Prop :=
  f.Sound r ∧ List.Forall₂ Control.Keeps f.definition.controls f.values

/-- What a row of modest controls stores of what it shows, it writes as the values that it shows. -/
theorem Control.zipWith_stored {α : Type} {controls : List Control}
    {values storeds : List ControlValue} (write : Control → ControlValue → α)
    (hwrite : ∀ control ∈ controls, ∀ v w, control.Keeps v →
      control.accept (control.displayed v) = .ok w → write control w = write control v)
    (hkeeps : List.Forall₂ Keeps controls values)
    (hstores : Stores controls (List.zipWith displayed controls values) storeds) :
    List.zipWith write controls storeds = List.zipWith write controls values := by
  induction hkeeps generalizing storeds with
  | nil =>
    cases hstores
    rfl
  | cons hv _ ih =>
    cases hstores with
    | cons hw hrest =>
      obtain ⟨hfirst, hwrite⟩ := List.forall_mem_cons.mp hwrite
      rw [List.zipWith_cons_cons, List.zipWith_cons_cons, hfirst _ _ hv hw, ih hwrite hrest]

namespace Filter

variable {r : Registry} {f f' : Filter}

/-- Filters of modest controls hold values that these keep. -/
theorem kept_settled (hr : r.Modest) : Filter.Kept r (Filter.Settled r) :=
  kept_row (fun d hd control hcontrol => (hr d hd control hcontrol).default)
    fun d hd control hcontrol _ _ => (hr d hd control hcontrol).keeps_stored

namespace Settled

theorem modest (hf : f.Settled r) (hr : r.Modest) :
    ∀ control ∈ f.definition.controls, control.Modest :=
  hr f.definition (Registry.mem_of_get? hf.1.registered)

theorem row (hf : f.Settled r) (hr : r.Modest) :
    List.Forall₂ (fun control v => control.Modest ∧ control.Keeps v)
      f.definition.controls f.values :=
  (List.forall₂_and_left _ _).mpr ⟨hf.modest hr, hf.2⟩

theorem suited (hf : f.Settled r) (hr : r.Modest) : f.Suited r where
  sound := hf.1
  suits := (hf.row hr).imp fun _ _ h => Control.suits_stored h.1.bounded h.2

theorem not_overflows (hf : f.Settled r) (hr : r.Modest) :
    ∀ p ∈ f.definition.controls.zip f.values, ¬ p.1.Overflows p.2 := by
  intro p hp
  obtain ⟨hmodest, hkeeps⟩ := List.forall₂_zip (hf.row hr) hp
  exact hmodest.not_overflows hkeeps

/-- A filter that holds what another one shows is written as that one, in both forms. -/
theorem written_alike (hf : f.Settled r) (hr : r.Modest)
    (hheld : Entry.Held (f.readAs Control.displayed) f') :
    f'.clause = f.clause ∧ f'.saved = f.saved := by
  have hdefinition : f'.definition = f.definition := hheld.definition
  have hwrite {α : Type} (write : Control → ControlValue → α)
      (h : ∀ control : Control, ∀ v w, control.Modest → control.Keeps v →
        control.accept (control.displayed v) = .ok w → write control w = write control v) :
      List.zipWith write f'.definition.controls f'.values =
        List.zipWith write f.definition.controls f.values := by
    rw [hdefinition]
    exact Control.zipWith_stored write
      (fun control hcontrol v w => h control v w (hf.modest hr control hcontrol)) hf.2
      hheld.stored
  refine ⟨?_, ?_⟩
  · unfold clause
    rw [hwrite Control.fieldText fun _ _ _ hmodest hv hw => (hmodest.shows_alike hv hw).1,
      Filter.id, Filter.id, hdefinition]
  · unfold saved
    rw [hwrite _ fun _ _ _ hmodest hv hw => Prod.ext rfl (hmodest.shows_alike hv hw).2,
      Filter.id, Filter.id, hdefinition]

end Settled

end Filter

/-! ### Chains -/

namespace Chain

variable {c d read : Chain}

/-- In every chain that comes about, modest controls keep the values that they hold. -/
theorem settled_run {r : Registry} (hr : r.Modest) (edits : List Edit) :
    ∀ f ∈ ((new r).run edits).filters, f.Settled r :=
  forall_run (c := new r) (Filter.kept_settled hr) (by simp [new]) edits

/-- A chain that holds what another one shows is written as that one, in both forms. -/
theorem Loaded.written_alike (h : d.Loaded c.name (c.readAs Control.displayed) read)
    (hr : c.registry.Modest) (hc : ∀ f ∈ c.filters, f.Settled c.registry) :
    read.encode = c.encode ∧ read.toJsonText = c.toJsonText := by
  have hfilters : List.Forall₂ (fun f f' : Filter => f'.clause = f.clause ∧ f'.saved = f.saved)
      c.filters read.filters := by
    have hheld := (List.forall₂_and_left _ _).mpr ⟨hc, List.forall₂_map_left_iff.mp h.filters⟩
    exact hheld.imp fun f f' hf => hf.1.written_alike hr hf.2
  have hmap {α : Type} (write : Filter → α) (hwrite : List.Forall₂
      (fun f f' : Filter => write f = write f') c.filters read.filters) :
      read.filters.map write = c.filters.map write := by
    have hrows : List.Forall₂ (· = ·) (c.filters.map write) (read.filters.map write) :=
      List.forall₂_map_left_iff.mpr (List.forall₂_map_right_iff.mpr hwrite)
    rw [List.forall₂_eq_eq_eq] at hrows
    exact hrows.symm
  refine ⟨?_, ?_⟩
  · unfold encode
    rw [List.flatMap_def, List.flatMap_def, h.name,
      hmap Filter.clause (hfilters.imp fun _ _ hf => hf.1.symm)]
  · unfold toJsonText saved
    rw [h.name, hmap Filter.saved (hfilters.imp fun _ _ hf => hf.2.symm)]

/-- **A chain that was read is written as the one that it was read from.** Both forms of a chain
over modest controls are read, and as the same chain, whose forms are the same as before. -/
theorem read_alike (hr : c.registry.Modest) (hc : ∀ f ∈ c.filters, f.Settled c.registry)
    (hd : d.registry = c.registry) :
    ∃ read, d.decode c.encode = .ok read ∧ d.decode c.toJsonText = .ok read ∧
      d.Loaded c.name (c.readAs Control.displayed) read ∧
      read.encode = c.encode ∧ read.toJsonText = c.toJsonText := by
  have hsuited : ∀ f ∈ c.filters, f.Suited c.registry := fun f hf => (hc f hf).suited hr
  have hconfined : c.readAs Control.confined = c.readAs Control.displayed :=
    List.map_congr_left fun f hf => Filter.readAs_confined ((hc f hf).not_overflows hr)
  have hdecode := decode_displayed hr.moderate hsuited hd
  obtain ⟨-, hjson⟩ := loadJson_confined hr.moderate hsuited hd
  obtain ⟨read, hload, hloaded⟩ : ∃ read,
      d.load c.name (c.readAs Control.displayed) = .ok read ∧
        d.Loaded c.name (c.readAs Control.displayed) read := by
    refine d.load_accepted c.name (List.forall_mem_map.mpr fun f hf => ?_)
    exact ((hsuited f hf).clause hr.moderate).accepted
  rw [hconfined] at hjson
  exact ⟨read, hdecode.trans hload, hjson.trans hload, hloaded, hloaded.written_alike hr hc⟩

end Chain

/-- **Saving a chain again changes nothing.** Whatever numbers and colours the built-in filters of a
chain were given, its compact text and its JSON text are read as the same chain, and both texts of
that chain are the same as those that it was read from. So any chain that later takes one of its
texts has its name, its filters and their values, in full. -/
theorem encodings_stable (edits : List Edit) (d : Chain) (hd : d.registry = .builtin) :
    let c := Editor.history (Chain.new .builtin) edits
    ∃ read, d.decode c.encode = .ok read ∧ d.decode c.toJsonText = .ok read ∧
      read.encode = c.encode ∧ read.toJsonText = c.toJsonText ∧
      ∀ later : Chain, later.registry = .builtin → ∃ again,
        later.decode read.encode = .ok again ∧ later.decode read.toJsonText = .ok again ∧
        again.name = read.name ∧ again.ids = read.ids ∧
        again.filters.map Filter.values = read.filters.map Filter.values := by
  intro c
  have hrun : c = (Chain.new .builtin).run edits := Editor.history_eq _ _
  have hregistry : c.registry = .builtin := by rw [hrun, Chain.run_new_registry]
  have hmodest : c.registry.Modest := by
    rw [hregistry]
    exact Registry.modest_builtin
  have hsettled : ∀ f ∈ c.filters, f.Settled c.registry := by
    rw [hregistry, hrun]
    exact Chain.settled_run Registry.modest_builtin edits
  obtain ⟨read, htext, hjson, hloaded, hencode, htoJson⟩ :=
    Chain.read_alike hmodest hsettled (hd.trans hregistry.symm)
  refine ⟨read, htext, hjson, hencode, htoJson, fun later hlater => ?_⟩
  obtain ⟨again, htext', hjson', hloaded', -⟩ :=
    Chain.read_alike hmodest hsettled (hlater.trans hregistry.symm)
  rw [hencode, htoJson]
  exact ⟨again, htext', hjson', hloaded.shows hloaded'⟩

/-- Numbers off the places of their controls, one of them next to a tie and one that is shown
without its sign, a colour off the bytes that has a channel that is no number, and a name with
marks in it. -/
theorem encodings_stable_unrounded :
    let edits : List Edit := [
      .setName "a~b;\"", .add "hsl_multiply", .setValue ⟨0⟩ 0 (.number 1.2345),
      .setValue ⟨0⟩ 1 (.number 0.125), .add "brightness_contrast",
      .setValue ⟨1⟩ 0 (.number (Binary.neg 0.4)), .setValue ⟨1⟩ 1 (.number 99.7),
      .add "blend_xor", .setValue ⟨2⟩ 0 (.color ⟨0.3, 0.7, Binary.indefinite⟩)]
    let c := Editor.history (Chain.new .builtin) edits
    c.encode = "hsl_multiply:1.23,0.13,1;brightness_contrast:0,100;blend_xor:4db300,100;~a~b;\"" ∧
      ∃ read, (Chain.new .builtin).decode c.encode = .ok read ∧
        (Chain.new .builtin).decode c.toJsonText = .ok read ∧
        read.encode = c.encode ∧ read.toJsonText = c.toJsonText := by
  intro edits c
  have hrun : c = (Chain.new .builtin).run edits := Editor.history_eq _ _
  obtain ⟨read, htext, hjson, hencode, htoJson, -⟩ := encodings_stable edits (.new .builtin) rfl
  refine ⟨?_, read, htext, hjson, hencode, htoJson⟩
  rw [hrun]
  decide +kernel

end ColorChain
