import Jz2440.Common.CInt
import Jz2440.Common.Memory
import Jz2440.Lcd.Line

/-!
# The frame buffer

Model of `lcd/framebuffer.c` in
`hard_driver/first_hard/025_sensors_022/007_irda_nec_ok_022_009`, over the bytes of the
memory. Addresses and colours are `unsigned int`, the parameters of the LCD and the
coordinates are `int`.

* `fbPutPixel_eq_storeTile`: a pixel on the screen is the tile `index lcd p` of the frame
  buffer.
* `clearScreen_eq_foldl`: `clear_screen` fills the tiles one after the other.
* `clearScreen_eq_plotting`: so it is the same as plotting all pixels in any order.
-/

namespace Jz2440.Lcd

open Jz2440.Common

/-! ## The code -/

/-- The parameters that `get_lcd_params` fetches (framebuffer.c:6-12). -/
structure LcdParams where
  fbBase : Word
  xres : Int32
  yres : Int32
  bpp : Int32

/-- `convert32bppto16bpp` (framebuffer.c:16-28): rgb565 from 0x00RRGGBB. -/
def convert32bppto16bpp (rgb : Word) : BitVec 16 :=
  let r := (rgb >>> 16) &&& 0xff
  let g := (rgb >>> 8) &&& 0xff
  let b := rgb &&& 0xff
  let r := r >>> 3
  let g := g >>> 2
  let b := b >>> 3
  ((r <<< 11) ||| (g <<< 5) ||| b).setWidth 16

/-- `*p = value` through a pointer to an object of `n` bytes. -/
def store (n : ℕ) (p value : Word) (m : Mem) : Mem := storeRange m p.toNat n (byteOf value)

/-- The variable `pixel_base` of `fb_put_pixel` (framebuffer.c:40). -/
def pixelBase (lcd : LcdParams) (x y : Int32) : Word :=
  lcd.fbBase + (lcd.xres * lcd.bpp / 8 * y).toBitVec + (x * lcd.bpp / 8).toBitVec

/-- `fb_put_pixel` (framebuffer.c:34-57). -/
def fbPutPixel (lcd : LcdParams) (x y : Int32) (color : Word) (m : Mem) : Mem :=
  if lcd.bpp = 8 then store 1 (pixelBase lcd x y) color m
  else if lcd.bpp = 16 then
    store 2 (pixelBase lcd x y) ((convert32bppto16bpp color).setWidth 32) m
  else if lcd.bpp = 32 then store 4 (pixelBase lcd x y) color m
  else m

/-- `for (i = 0; i < n; i++)` around a body that does not use `i`. -/
def forTo {σ : Type} (n : Int32) (body : σ → σ) : σ → σ := body^[n.toNatClampNeg]

/-- `*p++ = value`, on the pointer and the memory. -/
def storeNext (n : ℕ) (value : Word) (s : Word × Mem) : Word × Mem :=
  (s.1 + BitVec.ofNat 32 n, store n s.1 value s.2)

/-- The loops of `clear_screen` (framebuffer.c:71-74 and so on). -/
def fill (lcd : LcdParams) (n : ℕ) (value : Word) (m : Mem) : Mem :=
  (forTo lcd.xres (forTo lcd.yres (storeNext n value)) (lcd.fbBase, m)).2

/-- `clear_screen` (framebuffer.c:59-96). -/
def clearScreen (lcd : LcdParams) (color : Word) (m : Mem) : Mem :=
  if lcd.bpp = 8 then fill lcd 1 color m
  else if lcd.bpp = 16 then fill lcd 2 ((convert32bppto16bpp color).setWidth 32) m
  else if lcd.bpp = 32 then fill lcd 4 color m
  else m

/-- Both functions for one of the three depths: pixels of `w` bytes with the value `value`. -/
theorem depth_cases (lcd : LcdParams) (hbpp : lcd.bpp = 8 ∨ lcd.bpp = 16 ∨ lcd.bpp = 32)
    (color : Word) :
    ∃ (w : ℕ) (value : Word), (0 < w ∧ lcd.bpp.toInt = 8 * w ∧ lcd.bpp = .ofNat (8 * w)) ∧
      (∀ x y m, fbPutPixel lcd x y color m = store w (pixelBase lcd x y) value m) ∧
      ∀ m, clearScreen lcd color m = fill lcd w value m := by
  unfold fbPutPixel clearScreen
  rcases hbpp with h | h | h <;> rw [h]
  · exact ⟨1, color, ⟨by decide, by decide, rfl⟩, fun _ _ _ => rfl, fun _ => rfl⟩
  · exact ⟨2, _, ⟨by decide, by decide, rfl⟩, fun _ _ _ => rfl, fun _ => rfl⟩
  · exact ⟨4, color, ⟨by decide, by decide, rfl⟩, fun _ _ _ => rfl, fun _ => rfl⟩

/-! ## The screen -/

/-- The pixel is on the screen. -/
def OnScreen (lcd : LcdParams) (p : Pixel) : Prop :=
  (0 ≤ p.1 ∧ p.1 < lcd.xres) ∧ 0 ≤ p.2 ∧ p.2 < lcd.yres

/-- No overflow in the address of a pixel: a line has less than 2^31 bits, and the frame
    buffer lies below the end of the address space. -/
structure NoAddressOverflow (lcd : LcdParams) : Prop where
  line : 0 < lcd.yres → lcd.xres.toInt * lcd.bpp.toInt < 2 ^ 31
  frame : lcd.fbBase.toNat + lcd.xres.toInt * lcd.yres.toInt * lcd.bpp.toInt / 8 ≤ 2 ^ 32

/-- The number of a pixel, line by line. -/
def index (lcd : LcdParams) (p : Pixel) : ℕ :=
  p.2.toNatClampNeg * lcd.xres.toNatClampNeg + p.1.toNatClampNeg

/-- How many pixels there are. -/
def area (lcd : LcdParams) : ℕ := lcd.xres.toNatClampNeg * lcd.yres.toNatClampNeg

section Screen

variable {lcd : LcdParams} {w : ℕ} {p q : Pixel}

/-- The bytes of the frame buffer. -/
theorem size_eq (hx : 0 ≤ lcd.xres) (hy : 0 ≤ lcd.yres) (hw : lcd.bpp.toInt = 8 * w) :
    lcd.xres.toInt * lcd.yres.toInt * lcd.bpp.toInt / 8 = (area lcd * w : ℕ) := by
  rw [hw, ← Int32.cast_toNatClampNeg _ hx, ← Int32.cast_toNatClampNeg _ hy,
    show ∀ a b c : ℤ, a * b * (8 * c) = a * b * c * 8 by intros; ring,
    Int.mul_ediv_cancel _ (by decide), area, Nat.cast_mul, Nat.cast_mul]

theorem NoAddressOverflow.base_add_le (h : NoAddressOverflow lcd) (hx : 0 ≤ lcd.xres)
    (hy : 0 ≤ lcd.yres) (hw : lcd.bpp.toInt = 8 * w) :
    lcd.fbBase.toNat + area lcd * w ≤ 2 ^ 32 := by
  have hframe := h.frame
  rw [size_eq hx hy hw] at hframe
  exact_mod_cast hframe

theorem OnScreen.lt (hp : OnScreen lcd p) :
    p.1.toNatClampNeg < lcd.xres.toNatClampNeg ∧ p.2.toNatClampNeg < lcd.yres.toNatClampNeg := by
  obtain ⟨⟨hx, hxlt⟩, hy, hylt⟩ := hp
  rw [Int32.le_iff_toInt_le, Int32.toInt_zero] at hx hy
  rw [Int32.lt_iff_toInt_lt] at hxlt hylt
  unfold Int32.toNatClampNeg
  omega

theorem OnScreen.eq_ofNat (hp : OnScreen lcd p) :
    p = (.ofNat p.1.toNatClampNeg, .ofNat p.2.toNatClampNeg) :=
  Prod.ext (Int32.ofNat_toNatClampNeg _ hp.1.1).symm (Int32.ofNat_toNatClampNeg _ hp.2.1).symm

theorem index_lt (hp : OnScreen lcd p) : index lcd p < area lcd := by
  obtain ⟨hx, hy⟩ := hp.lt
  calc index lcd p
      < p.2.toNatClampNeg * lcd.xres.toNatClampNeg + lcd.xres.toNatClampNeg :=
        Nat.add_lt_add_left hx _
    _ = (p.2.toNatClampNeg + 1) * lcd.xres.toNatClampNeg := (Nat.succ_mul _ _).symm
    _ ≤ lcd.yres.toNatClampNeg * lcd.xres.toNatClampNeg := Nat.mul_le_mul_right _ hy
    _ = area lcd := Nat.mul_comm _ _

theorem index_injective (hp : OnScreen lcd p) (hq : OnScreen lcd q)
    (h : index lcd p = index lcd q) : p = q := by
  have hpos : 0 < lcd.xres.toNatClampNeg := by
    have := hp.lt.1
    omega
  have hx : p.1.toNatClampNeg = q.1.toNatClampNeg := by
    have hmod := congrArg (· % lcd.xres.toNatClampNeg) h
    simpa only [index, Nat.mul_add_mod_self_right, Nat.mod_eq_of_lt hp.lt.1,
      Nat.mod_eq_of_lt hq.lt.1] using hmod
  have hy : p.2.toNatClampNeg = q.2.toNatClampNeg := by
    unfold index at h
    rw [hx] at h
    exact Nat.eq_of_mul_eq_mul_right hpos (by omega)
  rw [hp.eq_ofNat, hq.eq_ofNat, hx, hy]

theorem onScreen_ofNat {x y : ℕ} (hx : x < lcd.xres.toNatClampNeg)
    (hy : y < lcd.yres.toNatClampNeg) : OnScreen lcd (.ofNat x, .ofNat y) := by
  have hcoord : ∀ (n : ℕ) (res : Int32), n < res.toNatClampNeg →
      0 ≤ Int32.ofNat n ∧ Int32.ofNat n < res := by
    intro n res hn
    have hres := res.toNatClampNeg_lt
    have hpos : 0 < res := (Int32.toNatClampNeg_pos_iff res).mp (by omega)
    refine ⟨Int32.zero_le_ofNat_of_lt (by omega), ?_⟩
    rw [← Int32.ofNat_toNatClampNeg res (Int32.le_of_lt hpos),
      Int32.ofNat_lt_iff_lt (by omega) hres]
    exact hn
  exact ⟨hcoord x _ hx, hcoord y _ hy⟩

/-- Each number is that of a pixel on the screen. -/
theorem index_surjective {i : ℕ} (hi : i < area lcd) : ∃ p, OnScreen lcd p ∧ index lcd p = i := by
  have hpos : 0 < lcd.xres.toNatClampNeg := by
    rcases Nat.eq_zero_or_pos lcd.xres.toNatClampNeg with h | h
    · rw [area, h, Nat.zero_mul] at hi
      omega
    · exact h
  have hx := Nat.mod_lt i hpos
  have hy : i / lcd.xres.toNatClampNeg < lcd.yres.toNatClampNeg := Nat.div_lt_of_lt_mul hi
  have hX := lcd.xres.toNatClampNeg_lt
  have hY := lcd.yres.toNatClampNeg_lt
  refine ⟨_, onScreen_ofNat hx hy, ?_⟩
  rw [index, Int32.toNatClampNeg_ofNat_of_lt (by omega),
    Int32.toNatClampNeg_ofNat_of_lt (by omega), Nat.div_add_mod']

/-- The address of a pixel on the screen. -/
theorem pixelBase_toNat (h : NoAddressOverflow lcd) (hx : 0 ≤ lcd.xres) (hy : 0 ≤ lcd.yres)
    (hpos : 0 < w) (hbpp : lcd.bpp.toInt = 8 * w) (hbpp' : lcd.bpp = .ofNat (8 * w))
    (hp : OnScreen lcd p) :
    (pixelBase lcd p.1 p.2).toNat = lcd.fbBase.toNat + index lcd p * w := by
  have hline : lcd.xres.toNatClampNeg * (8 * w) < 2 ^ 31 := by
    have hyres := hp.lt.2
    have := h.line ((Int32.toNatClampNeg_pos_iff _).mp (by omega))
    rw [hbpp, ← Int32.cast_toNatClampNeg _ hx] at this
    exact_mod_cast this
  have heighth : ∀ n ≤ lcd.xres.toNatClampNeg,
      Int32.ofNat n * Int32.ofNat (8 * w) / 8 = Int32.ofNat (n * w) := by
    intro n hn
    have hle := Nat.mul_le_mul_right (8 * w) hn
    rw [← Int32.ofNat_mul, show (8 : Int32) = Int32.ofNat 8 from rfl,
      ← Int32.ofNat_div (by omega) (by decide), Nat.mul_left_comm,
      Nat.mul_div_cancel_left _ (by decide)]
  have hsum : pixelBase lcd p.1 p.2 =
      BitVec.ofNat 32 (lcd.fbBase.toNat + index lcd p * w) := by
    rw [pixelBase, hbpp', ← Int32.ofNat_toNatClampNeg _ hx, ← Int32.ofNat_toNatClampNeg _ hp.1.1,
      ← Int32.ofNat_toNatClampNeg _ hp.2.1, heighth _ le_rfl, heighth _ hp.lt.1.le,
      ← Int32.ofNat_mul, Int32.toBitVec_ofNat', Int32.toBitVec_ofNat', BitVec.ofNat_add,
      BitVec.ofNat_toNat, BitVec.setWidth_eq, BitVec.add_assoc, ← BitVec.ofNat_add, index]
    congr 2
    ring
  have hend := h.base_add_le hx hy hbpp
  have hlast := Nat.mul_le_mul_right w (index_lt hp)
  rw [Nat.succ_mul] at hlast
  rw [hsum, BitVec.toNat_ofNat, Nat.mod_eq_of_lt (by omega)]

end Screen

/-! ## Both functions fill tiles -/

section Tiles

variable {lcd : LcdParams} {w : ℕ} {p q : Pixel}

/-- The loops fill the tiles one after the other. -/
theorem fill_eq_foldl (hend : lcd.fbBase.toNat + area lcd * w ≤ 2 ^ 32) (hpos : 0 < w)
    (value : Word) (m : Mem) :
    fill lcd w value m =
      (List.range (area lcd)).foldl (storeTile lcd.fbBase.toNat w (byteOf value)) m := by
  have hloop : ∀ k ≤ area lcd, (storeNext w value)^[k] (lcd.fbBase, m) =
      (lcd.fbBase + BitVec.ofNat 32 (k * w),
        (List.range k).foldl (storeTile lcd.fbBase.toNat w (byteOf value)) m) := by
    intro k hk
    induction k with
    | zero => simp
    | succ k ih =>
      have hle := Nat.mul_le_mul_right w hk
      rw [Nat.succ_mul] at hle
      have haddr : (lcd.fbBase + BitVec.ofNat 32 (k * w)).toNat = lcd.fbBase.toNat + k * w := by
        rw [BitVec.toNat_add, BitVec.toNat_ofNat, Nat.add_mod_mod, Nat.mod_eq_of_lt (by omega)]
      rw [Function.iterate_succ_apply', ih (by omega), storeNext, store, haddr, List.range_succ,
        List.foldl_append, BitVec.add_assoc, ← BitVec.ofNat_add, Nat.succ_mul]
      rfl
  have hiter : forTo lcd.xres (forTo lcd.yres (storeNext w value)) =
      (storeNext w value)^[area lcd] := by
    rw [forTo, forTo, ← Function.iterate_mul, Nat.mul_comm, area]
  rw [fill, hiter, hloop _ le_rfl]

/-- For a valid screen, `fb_put_pixel` fills one tile and `clear_screen` all of them. -/
theorem exists_tiles (hx : 0 ≤ lcd.xres) (hy : 0 ≤ lcd.yres)
    (hbpp : lcd.bpp = 8 ∨ lcd.bpp = 16 ∨ lcd.bpp = 32) (h : NoAddressOverflow lcd) (color : Word) :
    ∃ (w : ℕ) (f : ℕ → Byte), 0 < w ∧ lcd.bpp.toInt = 8 * w ∧
      (∀ p m, OnScreen lcd p →
        fbPutPixel lcd p.1 p.2 color m = storeTile lcd.fbBase.toNat w f m (index lcd p)) ∧
      ∀ m, clearScreen lcd color m =
        (List.range (area lcd)).foldl (storeTile lcd.fbBase.toNat w f) m := by
  obtain ⟨w, value, ⟨hpos, hw, hw'⟩, hput, hclear⟩ := depth_cases lcd hbpp color
  refine ⟨w, byteOf value, hpos, hw, ?_, ?_⟩
  · intro p m hp
    rw [hput, store, pixelBase_toNat h hx hy hpos hw hw' hp, storeTile]
  · intro m
    rw [hclear, fill_eq_foldl (h.base_add_le hx hy hw) hpos]

/-- The bytes that `fb_put_pixel` can change. -/
def pixelBytes (lcd : LcdParams) (p : Pixel) : Set ℕ :=
  {a | ∃ color m, fbPutPixel lcd p.1 p.2 color m a ≠ m a}

theorem mem_pixelBytes (hx : 0 ≤ lcd.xres) (hy : 0 ≤ lcd.yres)
    (hbpp : lcd.bpp = 8 ∨ lcd.bpp = 16 ∨ lcd.bpp = 32) (h : NoAddressOverflow lcd)
    (hw : lcd.bpp.toInt = 8 * w) (hp : OnScreen lcd p) {a : ℕ} (ha : a ∈ pixelBytes lcd p) :
    (a - lcd.fbBase.toNat) / w = index lcd p := by
  obtain ⟨color, m, hne⟩ := ha
  obtain ⟨w', f, hpos, hw', hput, -⟩ := exists_tiles hx hy hbpp h color
  obtain rfl : w' = w := by omega
  rw [hput p m hp, storeTile_apply hpos] at hne
  by_contra hindex
  exact hne (if_neg fun hin => hindex hin.2)

end Tiles

/-- `clear_screen` is the same as plotting all pixels of the screen in any order. Different
    pixels have different bytes, and nothing outside of the frame buffer is changed. -/
theorem clearScreen_eq_plotting (lcd : LcdParams) (hx : 0 ≤ lcd.xres) (hy : 0 ≤ lcd.yres)
    (hbpp : lcd.bpp = 8 ∨ lcd.bpp = 16 ∨ lcd.bpp = 32) (h : NoAddressOverflow lcd)
    (color : Word) (m : Mem) :
    (∀ pixels : List Pixel, (∀ p, p ∈ pixels ↔ OnScreen lcd p) →
      clearScreen lcd color m = pixels.foldl (fun m p => fbPutPixel lcd p.1 p.2 color m) m) ∧
    (∀ p q, OnScreen lcd p → OnScreen lcd q → p ≠ q →
      ∀ a ∈ pixelBytes lcd p, a ∉ pixelBytes lcd q) ∧
    ∀ a : ℕ, (a < lcd.fbBase.toNat ∨
        lcd.fbBase.toNat + lcd.xres.toInt * lcd.yres.toInt * lcd.bpp.toInt / 8 ≤ a) →
      clearScreen lcd color m a = m a := by
  obtain ⟨w, f, hpos, hw, hput, hclear⟩ := exists_tiles hx hy hbpp h color
  refine ⟨?_, ?_, ?_⟩
  · intro pixels hall
    have hfold : pixels.foldl (fun m p => fbPutPixel lcd p.1 p.2 color m) m =
        (pixels.map (index lcd)).foldl (storeTile lcd.fbBase.toNat w f) m := by
      rw [List.foldl_map]
      exact List.foldl_ext _ _ _ fun m p hp => hput p m ((hall p).mp hp)
    rw [hclear, hfold]
    apply foldl_storeTile_congr hpos
    intro i
    rw [List.mem_range, List.mem_map]
    constructor
    · intro hi
      obtain ⟨p, hp, hpi⟩ := index_surjective hi
      exact ⟨p, (hall p).mpr hp, hpi⟩
    · rintro ⟨p, hp, rfl⟩
      exact index_lt ((hall p).mp hp)
  · intro p q hp hq hne a hap haq
    apply hne
    apply index_injective hp hq
    rw [← mem_pixelBytes hx hy hbpp h hw hp hap, mem_pixelBytes hx hy hbpp h hw hq haq]
  · intro a ha
    rw [size_eq hx hy hw] at ha
    rw [hclear, foldl_storeTile_apply hpos, if_neg]
    rintro ⟨hle, hmem⟩
    have hlt := (Nat.div_lt_iff_lt_mul hpos).mp (List.mem_range.mp hmem)
    omega

/-- A screen with two lines of two pixels, plotted from the last one to the first. -/
theorem clearScreen_eq_plotting_two :
    let lcd : LcdParams := ⟨0x33c00000, 2, 2, 16⟩
    clearScreen lcd 0x00ff0000 (fun _ => 0) =
      [((1, 1) : Pixel), (0, 1), (1, 0), (0, 0)].foldl
        (fun m p => fbPutPixel lcd p.1 p.2 0x00ff0000 m) fun _ => 0 := by
  intro lcd
  refine (clearScreen_eq_plotting lcd (by decide) (by decide) (by decide)
    ⟨by decide, by decide⟩ 0x00ff0000 (fun _ => 0)).1 [(1, 1), (0, 1), (1, 0), (0, 0)] ?_
  rintro ⟨x, y⟩
  simp only [OnScreen, Int32.le_iff_toInt_le, Int32.lt_iff_toInt_lt, List.mem_cons,
    List.not_mem_nil, or_false, Prod.mk.injEq, ← Int32.toInt_inj]
  show x.toInt = 1 ∧ y.toInt = 1 ∨ x.toInt = 0 ∧ y.toInt = 1 ∨ x.toInt = 1 ∧ y.toInt = 0 ∨
    x.toInt = 0 ∧ y.toInt = 0 ↔ (0 ≤ x.toInt ∧ x.toInt < 2) ∧ 0 ≤ y.toInt ∧ y.toInt < 2
  omega

end Jz2440.Lcd
