import ColorChain.Chain.Edit
import ColorChain.Spectrum
import Mathlib.Tactic.Ring

/-! Every pixel in its place.

While a raster is painted, the pixels so far stand at its front, each where its line and column say,
and nothing stands behind them (`Painted`). One more pixel keeps this (`Painted.pixel`), so a line
does, and so do all lines (`painted_lines`). The raster is then known byte by byte
(`paint_pixel`). -/
namespace ColorChain.Spectrum

/-! ### The loops -/

/-- The colour of a pixel. -/
def pixelColor (c : Chain) (width height : Nat) (x y : Direction) (column row : Nat) : Color :=
  c.apply (Hsl.toRgb (pixelSeed c.seed.normalized x y width height column row))

/-- The bytes after one more pixel. -/
def pixelPainted (color : Nat → Nat → Color) (row : Nat) (bytes : Array UInt8) (column : Nat) :
    Array UInt8 :=
  bytes ++ pixelBytes (color column row)

/-- The bytes after one more line. -/
def linePainted (color : Nat → Nat → Color) (width : Nat) (bytes : Array UInt8) (row : Nat) :
    Array UInt8 :=
  (List.range width).foldl (pixelPainted color row) bytes

theorem paint_eq (c : Chain) (width height : Nat) (x y : Direction) :
    paint c width height x y =
      (List.range height).foldl (linePainted (pixelColor c width height x y) width) #[] := by
  simp only [paint, List.forIn_pure_yield_eq_foldl, pure_bind, Id.run_pure]
  rfl

/-! ### Slices of bytes -/

section
variable {bytes : Array UInt8} {more : List UInt8} {start count : Nat}

theorem size_append (bytes : Array UInt8) (more : List UInt8) :
    (bytes ++ more).size = bytes.size + more.length := by
  rw [← Array.length_toList, Array.toList_appendList, List.length_append, Array.length_toList]

theorem extract_before (h : start + count ≤ bytes.size) :
    (bytes ++ more).extract start (start + count) = bytes.extract start (start + count) := by
  rw [← Array.length_toList] at h
  have hstart : start ≤ bytes.toList.length := by omega
  have hcount : count ≤ (bytes.toList.drop start).length := by
    rw [List.length_drop]
    omega
  rw [← Array.toList_inj, Array.toList_extract, Array.toList_extract, Array.toList_appendList,
    List.extract_eq_take_drop, List.extract_eq_take_drop, Nat.add_sub_cancel_left,
    List.drop_append_of_le_length hstart, List.take_append_of_le_length hcount]

theorem extract_appended (bytes : Array UInt8) (more : List UInt8) :
    ((bytes ++ more).extract bytes.size (bytes.size + more.length)).toList = more := by
  rw [Array.toList_extract, Array.toList_appendList, List.extract_eq_take_drop,
    ← Array.length_toList, List.drop_left, Nat.add_sub_cancel_left, List.take_length]

end

/-! ### What stands so far -/

/-- The first `n` pixels of a raster of lines of `width` pixels stand where they belong, and nothing
else does. -/
structure Painted (color : Nat → Nat → Color) (width n : Nat) (bytes : Array UInt8) : Prop where
  size : bytes.size = 4 * n
  pixel : ∀ column row, column < width → row * width + column < n →
    (bytes.extract (4 * (row * width + column)) (4 * (row * width + column) + 4)).toList =
      pixelBytes (color column row)

variable {color : Nat → Nat → Color} {width n column row : Nat} {bytes : Array UInt8}

theorem painted_nil : Painted color width 0 #[] :=
  ⟨rfl, fun _ _ _ h => absurd h (Nat.not_lt_zero _)⟩

/-- A place in the raster is one column of one line. -/
theorem place_inj {column' row' : Nat} (hcolumn : column < width) (hcolumn' : column' < width)
    (h : row' * width + column' = row * width + column) : column' = column ∧ row' = row := by
  have hrest := congrArg (· % width) h
  simp only [Nat.mul_add_mod', Nat.mod_eq_of_lt hcolumn, Nat.mod_eq_of_lt hcolumn'] at hrest
  rw [hrest, Nat.add_right_cancel_iff] at h
  exact ⟨hrest, Nat.eq_of_mul_eq_mul_right (Nat.zero_lt_of_lt hcolumn) h⟩

/-- One more pixel stands behind the others. -/
theorem Painted.next (h : Painted color width (row * width + column) bytes)
    (hcolumn : column < width) :
    Painted color width (row * width + column + 1) (pixelPainted color row bytes column) where
  size := by
    rw [pixelPainted, size_append, h.size]
    show 4 * (row * width + column) + 4 = _
    ring
  pixel column' row' hcolumn' hlt := by
    rcases Nat.lt_succ_iff_lt_or_eq.mp hlt with hbefore | hlast
    · rw [← h.pixel column' row' hcolumn' hbefore, pixelPainted, extract_before]
      rw [h.size]
      omega
    · obtain ⟨rfl, rfl⟩ := place_inj hcolumn hcolumn' hlast
      have happended := extract_appended bytes (pixelBytes (color column' row'))
      rw [h.size] at happended
      exact happended

/-- A whole line more. The induction is on the columns that are done. -/
theorem Painted.line (h : Painted color width (row * width) bytes) :
    Painted color width ((row + 1) * width) (linePainted color width bytes row) := by
  have hcolumns (k : Nat) (hk : k ≤ width) : Painted color width (row * width + k)
      ((List.range k).foldl (pixelPainted color row) bytes) := by
    induction k with
    | zero => exact h
    | succ k ih =>
      rw [List.range_succ, List.foldl_append]
      exact (ih (Nat.le_of_succ_le hk)).next hk
  rw [Nat.succ_mul]
  exact hcolumns width le_rfl

theorem painted_lines (color : Nat → Nat → Color) (width height : Nat) :
    Painted color width (height * width)
      ((List.range height).foldl (linePainted color width) #[]) := by
  induction height with
  | zero =>
    rw [Nat.zero_mul]
    exact painted_nil
  | succ height ih =>
    rw [List.range_succ, List.foldl_append]
    exact ih.line

theorem painted_paint (c : Chain) (width height : Nat) (x y : Direction) :
    Painted (pixelColor c width height x y) width (height * width) (paint c width height x y) := by
  rw [paint_eq]
  exact painted_lines _ width height

/-! ### The raster -/

/-- The seed in degrees gives the colour that its fraction of a turn gives. -/
theorem toRgb_normalized (seed : Seed) : Hsl.toRgb seed.normalized = seed.color := rfl

/-- Where no axis drives anything, every pixel has the colour of the chain. -/
theorem pixelColor_of_none (c : Chain) (width height : Nat) {x y : Direction} (hx : x.axis = .none)
    (hy : y.axis = .none) (column row : Nat) :
    pixelColor c width height x y column row = c.color := by
  rw [pixelColor, pixelSeed, hx, hy]
  exact congrArg c.apply (toRgb_normalized c.seed)

theorem hexBytes_pixelBytes (color : Color) :
    ((pixelBytes color).take 3).flatMap Color.hexByte = (Color.toHex color).toList := by
  rw [Color.toHex, String.toList_ofList, Color.hexDigits, List.append_assoc]
  show Color.hexByte _ ++ (Color.hexByte _ ++ (Color.hexByte _ ++ [])) = _
  rw [List.append_nil]

/-- Lines that are appended to one another are painted as they are. -/
theorem toList_foldl {step : Array UInt8 → Nat → Array UInt8} {piece : Nat → List UInt8}
    (hstep : ∀ bytes i, (step bytes i).toList = bytes.toList ++ piece i) (is : List Nat)
    (bytes : Array UInt8) : (is.foldl step bytes).toList = bytes.toList ++ is.flatMap piece := by
  induction is generalizing bytes with
  | nil => exact (List.append_nil _).symm
  | cons i rest ih => rw [List.foldl_cons, ih, hstep, List.flatMap_cons, List.append_assoc]

theorem toList_linePainted (bytes : Array UInt8) (row : Nat) :
    (linePainted color width bytes row).toList =
      bytes.toList ++ (List.range width).flatMap fun column => pixelBytes (color column row) := by
  have hpixel (bytes : Array UInt8) (column : Nat) : (pixelPainted color row bytes column).toList =
      bytes.toList ++ pixelBytes (color column row) := Array.toList_appendList
  exact toList_foldl hpixel _ bytes

/-- What is painted is the raster. -/
theorem toList_paint (c : Chain) (width height : Nat) (x y : Direction) :
    (paint c width height x y).toList = raster c width height x y := by
  rw [paint_eq, toList_foldl toList_linePainted]
  rfl

/-- **A raster holds each pixel once, and in its place.** For every chain and every width and
height, zero included, what is painted has four bytes for each pixel. Those of the pixel in a column
and a row begin at four times the number of pixels before it, and are the colour that the chain
makes of the seed of that pixel, one byte for each channel, and a full byte. The seed has what `y`
drives at the row's centre and what `x` drives at the column's, `x` last. Where no axis drives
anything, the first three bytes of each pixel spell what the colour of the chain is written with,
whatever the seed. -/
theorem paint_pixel (c : Chain) (width height : Nat) (x y : Direction) :
    (paint c width height x y).size = 4 * width * height ∧
      ∀ column row, column < width → row < height →
        let place := 4 * (row * width + column)
        let color := c.apply (Hsl.toRgb (x.axis.sweep
          (y.axis.sweep c.seed.normalized (position row height y.inverted))
          (position column width x.inverted)))
        ((paint c width height x y).extract place (place + 4)).toList =
            [Color.toByte color.x, Color.toByte color.y, Color.toByte color.z, 255] ∧
          (x.axis = .none → y.axis = .none →
            ((paint c width height x y).extract place (place + 3)).toList.flatMap Color.hexByte =
              (Color.toHex c.color).toList) := by
  have hpainted := painted_paint c width height x y
  refine ⟨?_, fun column row hcolumn hrow => ?_⟩
  · rw [hpainted.size]
    ring
  · intro place color
    have hplace : row * width + column < height * width :=
      calc row * width + column < row * width + width := Nat.add_lt_add_left hcolumn _
        _ = (row + 1) * width := (Nat.succ_mul row width).symm
        _ ≤ height * width := Nat.mul_le_mul_right width hrow
    have hpixel := hpainted.pixel column row hcolumn hplace
    refine ⟨hpixel, fun hx hy => ?_⟩
    rw [pixelColor_of_none c width height hx hy] at hpixel
    rw [← hexBytes_pixelBytes, ← hpixel, Array.toList_extract, Array.toList_extract,
      List.extract_eq_take_drop, List.extract_eq_take_drop, Nat.add_sub_cancel_left,
      Nat.add_sub_cancel_left, List.take_take]
    rfl

/-- The hue is not a number, and the last of six pixels is written as the chain's colour is. -/
theorem paint_pixel_undefined :
    let c := (Chain.new .builtin).run [.setSeed ⟨.indefinite, 1, 0.75⟩, .add "posterize"]
    let bytes := paint c 3 2 ⟨.none, true⟩ ⟨.none, false⟩
    bytes.size = 24 ∧ ((bytes.extract 20 24).toList.getLast? = some 255) ∧
      (bytes.extract 20 23).toList.flatMap Color.hexByte = "808080".toList := by
  intro c bytes
  obtain ⟨hsize, hpixel⟩ := paint_pixel c 3 2 ⟨.none, true⟩ ⟨.none, false⟩
  obtain ⟨hbytes, hhex⟩ := hpixel 2 1 (by decide) (by decide)
  have hcolor : Color.toHex c.color = "808080" := by decide +kernel
  refine ⟨hsize, ?_, ?_⟩
  · rw [hbytes]
    rfl
  · rw [hhex rfl rfl, hcolor]

end ColorChain.Spectrum
