import ColorChain.Proofs.Binary.Within
import ColorChain.Trace

/-! What a computation yields.

A computation yields a property when its result has it and all operations on the way there were
regular (`Traced.Yields`). The rules go along the computation: one for a value at hand, one for
what follows an operation, and one for each operation on numbers of bounded magnitude. -/
namespace ColorChain

variable {α β γ : Type}

/-- The property holds of every component. -/
structure Vec3.All (P : α → Prop) (v : Vec3 α) : Prop where
  x : P v.x
  y : P v.y
  z : P v.z

theorem Vec3.All.mono {P Q : α → Prop} {v : Vec3 α} (h : v.All P) (hPQ : ∀ a, P a → Q a) : v.All Q :=
  ⟨hPQ _ h.x, hPQ _ h.y, hPQ _ h.z⟩

theorem Vec3.all_iff {P : α → Prop} {v : Vec3 α} : v.All P ↔ ∀ a ∈ v.toList, P a := by
  simp only [toList, List.forall_mem_cons]
  exact ⟨fun h => ⟨h.x, h.y, h.z, List.forall_mem_nil _⟩, fun h => ⟨h.1, h.2.1, h.2.2.1⟩⟩

namespace Traced

variable {P Q : α → Prop} {R : β → Prop}

/-- The result has the property, and every operation was regular. -/
structure Yields (t : Traced α) (P : α → Prop) : Prop where
  regular : t.Regular
  result : P t.result

namespace Yields

protected theorem pure {a : α} (h : P a) : (pure a : Traced α).Yields P :=
  ⟨List.forall_mem_nil _, h⟩

protected theorem bind {t : Traced α} {f : α → Traced β} (h : t.Yields P)
    (hf : ∀ a, P a → (f a).Yields R) : (t >>= f).Yields R := by
  obtain ⟨hregular, hresult⟩ := hf t.result h.result
  refine ⟨fun o ho => ?_, hresult⟩
  rcases List.mem_append.mp ho with ho | ho
  · exact h.regular o ho
  · exact hregular o ho

theorem mono {t : Traced α} (h : t.Yields P) (hPQ : ∀ a, P a → Q a) : t.Yields Q :=
  ⟨h.regular, hPQ _ h.result⟩

theorem ite {p : Prop} [Decidable p] {t u : Traced α} (ht : p → t.Yields P)
    (hu : ¬ p → u.Yields P) : (if p then t else u).Yields P := by
  split
  · next h => exact ht h
  · next h => exact hu h

theorem traverse {f : α → Traced β} {v : Vec3 α} (hv : v.All P) (hf : ∀ a, P a → (f a).Yields R) :
    (v.traverse f).Yields (Vec3.All R) :=
  (hf _ hv.x).bind fun _ hx => (hf _ hv.y).bind fun _ hy => (hf _ hv.z).bind fun _ hz =>
    .pure ⟨hx, hy, hz⟩

theorem traverse₂ {S : γ → Prop} {f : α → β → Traced γ} {v : Vec3 α} {w : Vec3 β} (hv : v.All P)
    (hw : w.All R) (hf : ∀ a b, P a → R b → (f a b).Yields S) :
    (v.traverse₂ f w).Yields (Vec3.All S) :=
  (hf _ _ hv.x hw.x).bind fun _ hx => (hf _ _ hv.y hw.y).bind fun _ hy =>
    (hf _ _ hv.z hw.z).bind fun _ hz => .pure ⟨hx, hy, hz⟩

/-! ### Operations -/

open Binary

/-- One operation. -/
theorem operation {o : Operation} {P : Single → Prop} (hdivisor : o.dividesByZero = false)
    (hnan : o.result.isNaN = false) (h : P o.result) : (perform o).Yields P :=
  ⟨List.forall_mem_singleton.mpr ⟨hdivisor, hnan⟩, h⟩

/-- One operation with what follows it, for the very result. -/
theorem step {o : Operation} {f : Single → Traced β} (hdivisor : o.dividesByZero = false)
    (hnan : o.result.isNaN = false) (hf : (f o.result).Yields R) :
    (perform o >>= f).Yields R :=
  (operation (P := fun z => z = o.result) hdivisor hnan rfl).bind fun _ hz => hz ▸ hf

variable {x y : Single} {d e : Nat}

theorem within {o : Operation} (hdivisor : o.dividesByZero = false) (h : Within e o.result) :
    (perform o).Yields (Within e) :=
  operation hdivisor h.isNaN h

theorem add (hx : Within d x) (hy : Within e y) (h : max d e < 63) :
    (perform (.add x y)).Yields (Within (max d e + 1)) :=
  within rfl (within_add hx hy h)

theorem sub (hx : Within d x) (hy : Within e y) (h : max d e < 63) :
    (perform (.sub x y)).Yields (Within (max d e + 1)) :=
  within rfl (within_sub hx hy h)

theorem mul (hx : Within d x) (hy : Within e y) (h : d + e < 64) :
    (perform (.mul x y)).Yields (Within (d + e)) :=
  within rfl (within_mul hx hy h)

theorem div (hx : Within e x) (hy : y.isFinite = true) (hone : 1 ≤ y.rational) (he : e < 64) :
    (perform (.div x y)).Yields (Within e) :=
  within (isZero_of_rational (by linarith)) (within_div_of_one_le hx hy hone he)

theorem relax {t : Traced Single} (h : t.Yields (Within d)) (hde : d ≤ e) : t.Yields (Within e) :=
  h.mono fun _ hx => hx.mono hde

theorem floor (hx : Within e x) (he : e < 64) :
    (perform (.floor x)).Yields (Within e) :=
  within rfl (within_floor hx he)

theorem abs (hx : Within e x) : (perform (.abs x)).Yields (Within e) :=
  within rfl (within_abs hx)

end Yields
end Traced
end ColorChain
