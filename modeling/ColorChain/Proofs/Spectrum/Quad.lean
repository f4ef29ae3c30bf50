import ColorChain.Proofs.Binary.Within
import ColorChain.Proofs.Color.Hue
import ColorChain.Spectrum

/-! The quad between its corners.

Only the corners of the quad are computed, and a place between them has the value that linear
interpolation gives it in the triangle where it lies. All that a corner says of its seed is affine
in the corner's place, and interpolation leaves what is affine as it is (`vertexAt_vertex`). So
either triangle shows at a place the seed that a corner at this place would have, the triangles
agree where they meet, and at the centre of a pixel that is the seed which the raster takes there
(`quad_shows_sweep`). The corners themselves are computed without rounding (`rational_vertex`). -/
namespace ColorChain

/-- The rationals that the components stand for. -/
def Vec3.rational (c : Color) : Vec3 Rat := ⟨c.x.rational, c.y.rational, c.z.rational⟩

namespace Spectrum
open Scalar

/-! ### Interpolation -/

/-- How much of each corner of a triangle there is in a place of the triangle. -/
structure Shares where
  first : Rat
  second : Rat
  third : Rat
  nonneg : 0 ≤ first ∧ 0 ≤ second ∧ 0 ≤ third
  whole : first + second + third = 1

/-- A value between the values of the corners. -/
def Shares.blend (s : Shares) (a b c : Rat) : Rat := s.first * a + s.second * b + s.third * c

def Shares.blendSeeds (s : Shares) (u v w : Vec3 Rat) : Vec3 Rat :=
  ⟨s.blend u.x v.x w.x, s.blend u.y v.y w.y, s.blend u.z v.z w.z⟩

structure Triangle where
  first : Vertex Rat
  second : Vertex Rat
  third : Vertex Rat

/-- The place that has these shares of the corners, with the seed that it has there. -/
def Triangle.vertexAt (t : Triangle) (s : Shares) : Vertex Rat where
  x := s.blend t.first.x t.second.x t.third.x
  y := s.blend t.first.y t.second.y t.third.y
  hsl := s.blendSeeds t.first.hsl t.second.hsl t.third.hsl

/-- The triangle contains a place, and interpolation gives this seed there. -/
def Triangle.Shows (t : Triangle) (x y : Rat) (hsl : Vec3 Rat) : Prop :=
  ∃ s : Shares, t.vertexAt s = ⟨x, y, hsl⟩

/-- The triangles of a row of vertices, three vertices each. -/
def triangles : List (Vertex Rat) → List Triangle
  | a :: b :: c :: rest => ⟨a, b, c⟩ :: triangles rest
  | _ => []

theorem along_true (t : Rat) : along true t = 1 - t := by
  simp [along, one, ratio_rat]

namespace Shares

variable (s : Shares) (a b c m k : Rat)

theorem blend_affine : s.blend (m * a + k) (m * b + k) (m * c + k) = m * s.blend a b c + k := by
  have hthird : s.third = 1 - s.first - s.second := by linarith [s.whole]
  rw [blend, blend, hthird]
  ring

theorem blend_self : s.blend a a a = a := by
  have h := s.blend_affine 0 0 0 0 a
  simpa using h

theorem blend_mem (ha : |a| ≤ 1) (hb : |b| ≤ 1) (hc : |c| ≤ 1) : |s.blend a b c| ≤ 1 := by
  obtain ⟨hfirst, hsecond, hthird⟩ := s.nonneg
  have hwhole := s.whole
  rw [abs_le] at ha hb hc ⊢
  rw [blend]
  constructor <;> nlinarith

theorem blend_along (inverted : Bool) :
    s.blend (along inverted a) (along inverted b) (along inverted c) =
      along inverted (s.blend a b c) := by
  cases inverted with
  | false => rfl
  | true =>
    have haffine := s.blend_affine a b c (-1) 1
    have hturned (t : Rat) : -1 * t + 1 = 1 - t := by ring
    simp only [hturned] at haffine
    simp only [along_true, haffine]

theorem blendSeeds_self (u : Vec3 Rat) : s.blendSeeds u u u = u := by
  simp only [blendSeeds, blend_self]

/-- What an axis drives is blended, and so is the rest. -/
theorem blendSeeds_sweep (axis : Axis) (u v w : Vec3 Rat) :
    s.blendSeeds (axis.sweep u a) (axis.sweep v b) (axis.sweep w c) =
      axis.sweep (s.blendSeeds u v w) (s.blend a b c) := by
  cases axis <;> rfl

end Shares

variable {base : Color} {seed : Vec3 Rat} {right down : Direction}

theorem vertex_rat (seed : Vec3 Rat) (right down : Direction) (x y : Rat) :
    vertex seed right down x y = ⟨x, y, right.axis.sweep
      (down.axis.sweep seed (along down.inverted (-1 / 2 * y + 1 / 2)))
      (along right.inverted (1 / 2 * x + 1 / 2))⟩ := by
  have hdown : (one - y) * ratio 1 2 = -1 / 2 * y + 1 / 2 := by
    simp only [one, ratio_rat]
    push_cast
    ring
  have hright : (x + one) * ratio 1 2 = 1 / 2 * x + 1 / 2 := by
    simp only [one, ratio_rat]
    push_cast
    ring
  simp only [vertex, hdown, hright]

/-- Between corners there is what a corner there would be. -/
theorem vertexAt_vertex (s : Shares) (x y x' y' x'' y'' : Rat) :
    Triangle.vertexAt ⟨vertex seed right down x y, vertex seed right down x' y',
      vertex seed right down x'' y''⟩ s =
        vertex seed right down (s.blend x x' x'') (s.blend y y' y'') := by
  simp only [Triangle.vertexAt, vertex_rat, Shares.blendSeeds_sweep, Shares.blendSeeds_self,
    Shares.blend_along, Shares.blend_affine]

/-! ### The two triangles -/

/-- The triangle to the right of the diagonal, and the one to its left. -/
def halves (seed : Vec3 Rat) (right down : Direction) : List Triangle :=
  let corner := vertex seed right down
  [⟨corner (-1) (-1), corner 1 (-1), corner 1 1⟩, ⟨corner (-1) (-1), corner 1 1, corner (-1) 1⟩]

theorem eq_of_vertex {x y x' y' : Rat} {hsl : Vec3 Rat}
    (h : vertex seed right down x' y' = ⟨x, y, hsl⟩) :
    x' = x ∧ y' = y ∧ hsl = (vertex seed right down x y).hsl := by
  obtain rfl : x' = x := congrArg Vertex.x h
  obtain rfl : y' = y := congrArg Vertex.y h
  exact ⟨rfl, rfl, (congrArg Vertex.hsl h).symm⟩

/-- Either triangle shows what a corner at the place would have. -/
theorem shows_halves {t : Triangle} (ht : t ∈ halves seed right down) {x y : Rat} {hsl : Vec3 Rat}
    (h : t.Shows x y hsl) : |x| ≤ 1 ∧ |y| ≤ 1 ∧ hsl = (vertex seed right down x y).hsl := by
  have hone : |(1 : Rat)| ≤ 1 := by norm_num
  have hminus : |(-1 : Rat)| ≤ 1 := by norm_num
  obtain ⟨s, hs⟩ := h
  simp only [halves, List.mem_cons, List.not_mem_nil, or_false] at ht
  rcases ht with rfl | rfl
  · rw [vertexAt_vertex] at hs
    obtain ⟨rfl, rfl, hhsl⟩ := eq_of_vertex hs
    exact ⟨s.blend_mem _ _ _ hminus hone hone, s.blend_mem _ _ _ hminus hminus hone, hhsl⟩
  · rw [vertexAt_vertex] at hs
    obtain ⟨rfl, rfl, hhsl⟩ := eq_of_vertex hs
    exact ⟨s.blend_mem _ _ _ hminus hone hminus, s.blend_mem _ _ _ hminus hone hone, hhsl⟩

/-- One of them contains each place of the square. -/
theorem exists_shows {x y : Rat} (hx : |x| ≤ 1) (hy : |y| ≤ 1) :
    ∃ t ∈ halves seed right down, ∃ hsl, t.Shows x y hsl := by
  rw [abs_le] at hx hy
  rcases le_total y x with hle | hle
  · let s : Shares := ⟨(1 - x) / 2, (x - y) / 2, (1 + y) / 2,
      ⟨by linarith, by linarith, by linarith⟩, by ring⟩
    have hplace : s.blend (-1) 1 1 = x ∧ s.blend (-1) (-1) 1 = y := by
      constructor <;> simp only [s, Shares.blend] <;> ring
    refine ⟨_, List.mem_cons_self, (vertex seed right down x y).hsl, s, ?_⟩
    rw [vertexAt_vertex, hplace.1, hplace.2]
    rfl
  · let s : Shares := ⟨(1 - y) / 2, (1 + x) / 2, (y - x) / 2,
      ⟨by linarith, by linarith, by linarith⟩, by ring⟩
    have hplace : s.blend (-1) 1 (-1) = x ∧ s.blend (-1) 1 1 = y := by
      constructor <;> simp only [s, Shares.blend] <;> ring
    refine ⟨_, List.mem_cons_of_mem _ List.mem_cons_self, (vertex seed right down x y).hsl, s, ?_⟩
    rw [vertexAt_vertex, hplace.1, hplace.2]
    rfl

/-! ### Pixels -/

/-- Where the centre of pixel `index` stands on an axis of clip space with `extent` pixels. -/
def centre (index extent : Nat) : Rat := 2 * (index + 1 / 2) / extent - 1

theorem centre_mem {index extent : Nat} (h : index < extent) : |centre index extent| ≤ 1 := by
  have hpos : (0 : Rat) < extent := by exact_mod_cast Nat.zero_lt_of_lt h
  have hlow : (0 : Rat) ≤ (index + 1 / 2) / extent := by positivity
  have hhigh : ((index : Rat) + 1 / 2) / extent ≤ 1 := by
    rw [div_le_one hpos]
    have hle : (index : Rat) + 1 ≤ extent := by exact_mod_cast h
    linarith
  rw [centre, mul_div_assoc, abs_le]
  constructor <;> linarith

theorem position_rat (index extent : Nat) (inverted : Bool) :
    (position index extent inverted : Rat) = along inverted (((index : Rat) + 1 / 2) / extent) := by
  simp only [position, ratio_rat, Nat.cast_one, div_one, Nat.cast_ofNat]

/-- A corner at the centre of a pixel would have the seed of the pixel. -/
theorem vertex_centre (seed : Vec3 Rat) (right down : Direction) (width height column row : Nat) :
    (vertex seed right down (centre column width) (-centre row height)).hsl =
      pixelSeed seed right down width height column row := by
  have hright : 1 / 2 * centre column width + 1 / 2 = ((column : Rat) + 1 / 2) / width := by
    rw [centre]
    ring
  have hdown : -1 / 2 * -centre row height + 1 / 2 = ((row : Rat) + 1 / 2) / height := by
    rw [centre]
    ring
  rw [vertex_rat, pixelSeed, position_rat, position_rat, hright, hdown]

/-! ### The corners -/

/-- The vertex that stands for these rationals. -/
def Vertex.rational (v : Vertex Single) : Vertex Rat := ⟨v.x.rational, v.y.rational, v.hsl.rational⟩

/-- Every component of a vertex is finite. -/
def Vertex.Finite (v : Vertex Single) : Prop :=
  ∀ a ∈ v.x :: v.y :: v.hsl.toList, a.isFinite = true

/-- Zero or one, in the binary format and as a rational. -/
def End (t : Single) (q : Rat) : Prop := t = zero ∧ q = 0 ∨ t = one ∧ q = 1

theorem End.rational {t : Single} {q : Rat} (h : End t q) : t.isFinite = true ∧ t.rational = q := by
  rcases h with ⟨rfl, rfl⟩ | ⟨rfl, rfl⟩
  · exact ⟨rfl, Binary.rational_ofNat_zero⟩
  · exact ⟨rfl, Binary.rational_one⟩

theorem End.along {t : Single} {q : Rat} (h : End t q) (inverted : Bool) :
    End (along inverted t) (along inverted q) := by
  cases inverted with
  | false => exact h
  | true =>
    rw [along_true]
    rcases h with ⟨rfl, rfl⟩ | ⟨rfl, rfl⟩
    · exact .inr ⟨by decide +kernel, sub_zero 1⟩
    · exact .inl ⟨by decide +kernel, sub_self 1⟩

/-- A seed whose axis is driven to an end has that end's value there, and the rest as before. -/
theorem rational_sweep (axis : Axis) (seed : Color) {t : Single} {q : Rat} (ht : End t q) :
    (axis.sweep seed t).rational = axis.sweep seed.rational q := by
  cases axis with
  | none => rfl
  | hue | saturation | lightness => simp only [Axis.sweep, Vec3.rational, ht.rational.2]

theorem finite_sweep (axis : Axis) {seed : Color} (hseed : ∀ a ∈ seed.toList, a.isFinite = true)
    {t : Single} {q : Rat} (ht : End t q) :
    ∀ a ∈ (axis.sweep seed t).toList, a.isFinite = true := by
  have hfinite := ht.rational.1
  simp only [Vec3.toList, List.forall_mem_cons] at hseed
  obtain ⟨hx, hy, hz, hnil⟩ := hseed
  cases axis <;> simp only [Axis.sweep, Vec3.toList, List.forall_mem_cons]
  · exact ⟨hx, hy, hz, hnil⟩
  · exact ⟨hfinite, hy, hz, hnil⟩
  · exact ⟨hx, hfinite, hz, hnil⟩
  · exact ⟨hx, hy, hfinite, hnil⟩

/-- An edge of clip space, in the binary format and as a rational. -/
def Edge (t : Single) (q : Rat) : Prop := t = -one ∧ q = -1 ∨ t = one ∧ q = 1

theorem Edge.rational {t : Single} {q : Rat} (h : Edge t q) :
    t.isFinite = true ∧ t.rational = q := by
  rcases h with ⟨rfl, rfl⟩ | ⟨rfl, rfl⟩
  · refine ⟨rfl, ?_⟩
    show (-(1 : Single)).rational = -1
    rw [Binary.rational_neg, Binary.rational_one]
  · exact ⟨rfl, Binary.rational_one⟩

/-- From an edge it is nothing or the whole to the left edge, and to the upper one. -/
theorem Edge.ends {t : Single} {q : Rat} (h : Edge t q) :
    End ((t + one) * ratio 1 2) (1 / 2 * q + 1 / 2) ∧
      End ((one - t) * ratio 1 2) (-1 / 2 * q + 1 / 2) := by
  rcases h with ⟨rfl, rfl⟩ | ⟨rfl, rfl⟩
  · exact ⟨.inl ⟨by decide +kernel, by norm_num⟩, .inr ⟨by decide +kernel, by norm_num⟩⟩
  · exact ⟨.inr ⟨by decide +kernel, by norm_num⟩, .inl ⟨by decide +kernel, by norm_num⟩⟩

/-- A corner is computed without rounding. -/
theorem rational_vertex (base : Color) (right down : Direction) {x y : Single} {p q : Rat}
    (hx : Edge x p) (hy : Edge y q) :
    (vertex base right down x y).rational = vertex base.rational right down p q := by
  have hright := hx.ends.1.along right.inverted
  have hdown := hy.ends.2.along down.inverted
  have hseed : (vertex base right down x y).hsl.rational = right.axis.sweep
      (down.axis.sweep base.rational (along down.inverted (-1 / 2 * q + 1 / 2)))
      (along right.inverted (1 / 2 * p + 1 / 2)) :=
    (rational_sweep _ _ hright).trans (by rw [rational_sweep _ _ hdown])
  rw [vertex_rat, ← hseed, ← hx.rational.2, ← hy.rational.2]
  rfl

theorem finite_vertex (hbase : ∀ a ∈ base.toList, a.isFinite = true) (right down : Direction)
    {x y : Single} {p q : Rat} (hx : Edge x p) (hy : Edge y q) :
    (vertex base right down x y).Finite := by
  have hright := hx.ends.1.along right.inverted
  have hdown := hy.ends.2.along down.inverted
  refine List.forall_mem_cons.mpr ⟨hx.rational.1, List.forall_mem_cons.mpr ⟨hy.rational.1, ?_⟩⟩
  exact finite_sweep _ (finite_sweep _ hbase hdown) hright

theorem edge_low : Edge (-one) (-1) := .inl ⟨rfl, rfl⟩

theorem edge_high : Edge one 1 := .inr ⟨rfl, rfl⟩

/-- The vertices of the quad are the corners of its two halves. -/
theorem triangles_quad (base : Color) (right down : Direction) :
    triangles ((quad base right down).map Vertex.rational) = halves base.rational right down := by
  simp only [quad, List.map_cons, List.map_nil, triangles, halves,
    rational_vertex base right down edge_low edge_low,
    rational_vertex base right down edge_high edge_low,
    rational_vertex base right down edge_high edge_high,
    rational_vertex base right down edge_low edge_high]

theorem finite_quad (hbase : ∀ a ∈ base.toList, a.isFinite = true) (right down : Direction) :
    ∀ v ∈ quad base right down, v.Finite := by
  have hlowlow := finite_vertex hbase right down edge_low edge_low
  have hhighhigh := finite_vertex hbase right down edge_high edge_high
  simp only [quad, List.forall_mem_cons]
  exact ⟨hlowlow, finite_vertex hbase right down edge_high edge_low, hhighhigh, hlowlow, hhighhigh,
    finite_vertex hbase right down edge_low edge_high, List.forall_mem_nil _⟩

/-- **The quad shows the sweep of the raster at the centre of every pixel.** The vertices of the
quad of a finite seed are finite, and their exact values make two triangles. The triangles lie in
the square of clip space and cover it, and where a place lies in both they show the same there.
Whichever contains the centre of a pixel, and one does, shows there by linear interpolation exactly
the seed that the raster takes at the pixel, over the rationals: `down` drives its component first,
then `right`, each from the middle of the pixel, and from the other end when inverted. -/
theorem quad_shows_sweep (base : Color) (hbase : ∀ a ∈ base.toList, a.isFinite = true)
    (right down : Direction) :
    let shown := triangles ((quad base right down).map Vertex.rational)
    (∀ v ∈ quad base right down, v.Finite) ∧
      (∀ x y : Rat, (∃ t ∈ shown, ∃ hsl, t.Shows x y hsl) ↔ |x| ≤ 1 ∧ |y| ≤ 1) ∧
      (∀ t ∈ shown, ∀ t' ∈ shown, ∀ x y hsl hsl', t.Shows x y hsl → t'.Shows x y hsl' →
        hsl = hsl') ∧
      ∀ width height column row : Nat, column < width → row < height →
        let x : Rat := 2 * (column + 1 / 2) / width - 1
        let y : Rat := 1 - 2 * (row + 1 / 2) / height
        (∃ t ∈ shown, ∃ hsl, t.Shows x y hsl) ∧
          ∀ t ∈ shown, ∀ hsl, t.Shows x y hsl →
            hsl = pixelSeed base.rational right down width height column row := by
  intro shown
  have hshown : shown = halves base.rational right down := triangles_quad base right down
  rw [hshown]
  refine ⟨finite_quad hbase right down, fun x y => ⟨?_, fun ⟨hx, hy⟩ => exists_shows hx hy⟩, ?_, ?_⟩
  · rintro ⟨t, ht, hsl, hshows⟩
    obtain ⟨hx, hy, -⟩ := shows_halves ht hshows
    exact ⟨hx, hy⟩
  · intro t ht t' ht' x y hsl hsl' hshows hshows'
    obtain ⟨-, -, rfl⟩ := shows_halves ht hshows
    obtain ⟨-, -, rfl⟩ := shows_halves ht' hshows'
    rfl
  · intro width height column row hcolumn hrow x y
    have hx : x = centre column width := rfl
    have hy : y = -centre row height := by
      rw [centre, neg_sub]
    rw [hx, hy]
    refine ⟨exists_shows (centre_mem hcolumn) ?_, fun t ht hsl hshows => ?_⟩
    · rw [abs_neg]
      exact centre_mem hrow
    · obtain ⟨-, -, rfl⟩ := shows_halves ht hshows
      exact vertex_centre base.rational right down width height column row

/-- Both axes drive the hue, and the one to the right is the one that shows: at the last of three
columns, counted from the other end, there is a sixth. -/
theorem quad_shows_sweep_hue :
    let base : Color := ⟨0.25, 1, 0.5⟩
    let shown := triangles ((quad base ⟨.hue, true⟩ ⟨.hue, false⟩).map Vertex.rational)
    (∀ a ∈ base.toList, a.isFinite = true) ∧ (∃ t ∈ shown, ∃ hsl, t.Shows (2 / 3) (1 / 2) hsl) ∧
      ∀ t ∈ shown, ∀ hsl, t.Shows (2 / 3) (1 / 2) hsl → hsl.x = 1 / 6 := by
  intro base shown
  have hbase : ∀ a ∈ base.toList, a.isFinite = true := by decide +kernel
  obtain ⟨-, -, -, hpixel⟩ := quad_shows_sweep base hbase ⟨.hue, true⟩ ⟨.hue, false⟩
  obtain ⟨hthere, hseed⟩ := hpixel 3 2 2 0 (by decide) (by decide)
  have hx : 2 * (((2 : Nat) : Rat) + 1 / 2) / (3 : Nat) - 1 = 2 / 3 := by norm_num
  have hy : 1 - 2 * (((0 : Nat) : Rat) + 1 / 2) / (2 : Nat) = 1 / 2 := by norm_num
  rw [hx, hy] at hthere hseed
  refine ⟨hbase, hthere, fun t ht hsl hshows => ?_⟩
  rw [hseed t ht hsl hshows]
  show (position 2 3 true : Rat) = 1 / 6
  rw [position_rat, along_true]
  norm_num

end Spectrum
end ColorChain
