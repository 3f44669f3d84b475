import Jz2440.Common.Loop
import Jz2440.Common.Memory

/-!
# The page table of the start code

Model of `mmu.c` in
`hard_driver/first_hard/025_sensors_022/007_irda_nec_ok_022_009`.
`create_page_table` fills a first-level table of 4096 section descriptors at
0x32000000, one for each megabyte of the virtual address space, and `start.S` then
switches the MMU on. The memory of the table is SDRAM, whose content before is
arbitrary.

* `createPageTable_entry`: the descriptors that are left, in the order in which they
  are written.
* `createPageTable_lookup`: every address that the comment of `create_page_table`
  lists is mapped as it says.
* `unlisted_fault_iff`: the other addresses fault iff their descriptors happened to
  be fault descriptors before, since nothing clears the table.
-/

namespace Jz2440.Boot

open Jz2440.Common

/-! ## Section descriptors -/

def mmuSecdescAp : Word := 3#32 <<< 10
def mmuSecdescDomain : Word := 0#32 <<< 5
def mmuSecdescNcnb : Word := 0#32 <<< 2
def mmuSecdescWb : Word := 3#32 <<< 2
def mmuSecdescType : Word := (1#32 <<< 4) ||| (1#32 <<< 1)

/-- `MMU_SECDESC_FOR_IO` (mmu.c:9). -/
def mmuSecdescForIo : Word :=
  mmuSecdescAp ||| mmuSecdescDomain ||| mmuSecdescNcnb ||| mmuSecdescType

/-- `MMU_SECDESC_FOR_MEM` (mmu.c:10). -/
def mmuSecdescForMem : Word :=
  mmuSecdescAp ||| mmuSecdescDomain ||| mmuSecdescWb ||| mmuSecdescType

/-- The descriptor of a section at `pa`. -/
def secdesc (pa : Word) (io : Bool) : Word :=
  (pa &&& 0xfff00000#32) ||| if io then mmuSecdescForIo else mmuSecdescForMem

/-- `create_secdesc` (mmu.c:16-26). -/
def createSecdesc (ttb : ℕ) (va pa : Word) (io : Bool) (mem : Mem) : Mem :=
  let index := va.toNat / 0x100000
  storeWord mem (ttb + 4 * index) (secdesc pa io)

/-! ## `create_page_table` -/

/-- The base of the table. -/
def ttb : ℕ := 0x32000000

/-- The variables of a loop of `create_page_table`, and the memory. -/
structure MapState where
  va : Word
  pa : Word
  mem : Mem

/-- The body of both loops. -/
def mapSection (io : Bool) (s : MapState) : MapState :=
  { va := s.va + 0x100000, pa := s.pa + 0x100000, mem := createSecdesc ttb s.va s.pa io s.mem }

/-- A loop that maps sections onto themselves as long as `more va`. There are 4096
    sections, so a loop that ends does so within this bound. -/
def mapWhile (more : Word → Bool) (io : Bool) (va : Word) (mem : Mem) : Mem :=
  (repeatWhile (fun s => more s.va = true) (mapSection io) 4096 ⟨va, va, mem⟩).mem

/-- `create_page_table` (mmu.c:49-91). -/
def createPageTable (mem : Mem) : Mem :=
  -- 2.1 for sram/nor flash
  let mem := createSecdesc ttb 0 0 true mem
  -- 2.2 for sram when nor boot
  let mem := createSecdesc ttb 0x40000000 0x40000000 false mem
  -- 2.3 for 64M sdram
  let mem := mapWhile (fun va => va < 0x34000000) false 0x30000000 mem
  -- 2.4 for register: 0x48000000~0x5B00001C
  let mem := mapWhile (fun va => va ≤ 0x5b000000) true 0x48000000 mem
  -- 2.5 for Framebuffer : 0x33c00000
  let mem := createSecdesc ttb 0x33c00000 0x33c00000 true mem
  -- 2.6 for link address
  createSecdesc ttb 0xb0000000 0x30000000 false mem

/-! ## The lookup of the MMU -/

/-- What the first-level lookup of an address gives: no mapping, an address with the
    bits C and B, or a second-level table. -/
inductive Lookup
  | fault
  | mapped (pa : Word) (c b : Bool)
  | table
  deriving DecidableEq

/-- Descriptor `i` of the table. -/
def entry (mem : Mem) (i : ℕ) : Word := loadWord mem (ttb + 4 * i)

/-- The first-level lookup of the ARM920T with the table at `ttb`: bits 1:0 of the
    descriptor are its type, 00 for a fault and 10 for a section. -/
def firstLevel (mem : Mem) (va : Word) : Lookup :=
  let desc := entry mem (va.toNat / 0x100000)
  if desc &&& 3#32 = 0#32 then .fault
  else if desc &&& 3#32 = 2#32 then
    .mapped ((desc &&& 0xfff00000#32) ||| (va &&& 0xfffff#32)) (desc.getLsbD 3) (desc.getLsbD 2)
  else .table

/-! ## The descriptors that are written -/

/-- The first address of section `i`. -/
def sectionAddr (i : ℕ) : Word := BitVec.ofNat 32 (i * 0x100000)

theorem sectionAddr_toNat {i : ℕ} (hi : i < 4096) : (sectionAddr i).toNat = i * 0x100000 := by
  rw [sectionAddr, BitVec.toNat_ofNat]
  omega

theorem sectionAddr_succ (i : ℕ) : sectionAddr i + 0x100000 = sectionAddr (i + 1) := by
  rw [sectionAddr, sectionAddr, Nat.add_mul, BitVec.ofNat_add]
  rfl

theorem entry_createSecdesc {j : ℕ} (hj : j < 4096) (pa : Word) (io : Bool) (mem : Mem) (i : ℕ) :
    entry (createSecdesc ttb (sectionAddr j) pa io mem) i =
      if i = j then secdesc pa io else entry mem i := by
  have hindex : (sectionAddr j).toNat / 0x100000 = j := by
    rw [sectionAddr_toNat hj]
    omega
  unfold createSecdesc entry
  simp only [hindex]
  split_ifs with hi
  · rw [hi, loadWord_storeWord_self]
  · exact loadWord_storeWord_of_disjoint mem _ (by omega)

/-- After `n` passes from section `first` on. -/
theorem iterate_mapSection (io : Bool) (first : ℕ) (mem : Mem) (n : ℕ) (hn : first + n ≤ 4096) :
    ∃ mem', (mapSection io)^[n] ⟨sectionAddr first, sectionAddr first, mem⟩ =
        ⟨sectionAddr (first + n), sectionAddr (first + n), mem'⟩ ∧
      ∀ i, entry mem' i =
        if first ≤ i ∧ i < first + n then secdesc (sectionAddr i) io else entry mem i := by
  induction n with
  | zero => exact ⟨mem, rfl, fun i => (if_neg (by omega)).symm⟩
  | succ n ih =>
    obtain ⟨mem', hiter, hentry⟩ := ih (by omega)
    refine ⟨createSecdesc ttb (sectionAddr (first + n)) (sectionAddr (first + n)) io mem', ?_, ?_⟩
    · rw [Function.iterate_succ_apply', hiter]
      simp only [mapSection, sectionAddr_succ, Nat.add_assoc]
    · intro i
      rw [entry_createSecdesc (by omega), hentry i]
      by_cases hi : i = first + n
      · rw [if_pos hi, if_pos (by omega), hi]
      · rw [if_neg hi]
        by_cases hold : first ≤ i ∧ i < first + n
        · rw [if_pos hold, if_pos (by omega)]
        · rw [if_neg hold, if_neg (by omega)]

/-- A loop that maps the sections `first, …, first + n - 1`. -/
theorem entry_mapWhile {more : Word → Bool} (io : Bool) (first n : ℕ) (hn : first + n ≤ 4096)
    (hmore : ∀ j < n, more (sectionAddr (first + j)) = true)
    (hend : more (sectionAddr (first + n)) = false) (mem : Mem) (i : ℕ) :
    entry (mapWhile more io (sectionAddr first) mem) i =
      if first ≤ i ∧ i < first + n then secdesc (sectionAddr i) io else entry mem i := by
  have hva : ∀ j ≤ n, ((mapSection io)^[j] ⟨sectionAddr first, sectionAddr first, mem⟩).va =
      sectionAddr (first + j) := by
    intro j hj
    obtain ⟨mem', hiter, -⟩ := iterate_mapSection io first mem j (by omega)
    rw [hiter]
  have hloop : repeatWhile (fun s : MapState => more s.va = true) (mapSection io) 4096
      ((mapSection io)^[0] ⟨sectionAddr first, sectionAddr first, mem⟩) =
      (mapSection io)^[n] ⟨sectionAddr first, sectionAddr first, mem⟩ := by
    refine repeatWhile_count
      (fun j => (mapSection io)^[j] ⟨sectionAddr first, sectionAddr first, mem⟩) n
      (fun j hj => ?_) (fun j _ => (Function.iterate_succ_apply' (mapSection io) j _).symm)
      ?_ 4096 (by omega)
    · rw [hva j hj.le]
      exact hmore j hj
    · rw [hva n le_rfl, hend]
      exact Bool.false_ne_true
  obtain ⟨mem', hiter, hentry⟩ := iterate_mapSection io first mem n hn
  rw [mapWhile, show (⟨sectionAddr first, sectionAddr first, mem⟩ : MapState) =
    (mapSection io)^[0] ⟨sectionAddr first, sectionAddr first, mem⟩ from rfl, hloop, hiter]
  exact hentry i

theorem entry_mapSdram (mem : Mem) (i : ℕ) :
    entry (mapWhile (fun va => va < 0x34000000) false 0x30000000 mem) i =
      if 0x300 ≤ i ∧ i < 0x340 then secdesc (sectionAddr i) false else entry mem i := by
  refine entry_mapWhile false 0x300 0x40 (by omega) (fun j hj => ?_) ?_ mem i
  · rw [decide_eq_true_eq, BitVec.lt_def, sectionAddr_toNat (by omega)]
    show _ < 0x34000000
    omega
  · decide

theorem entry_mapRegisters (mem : Mem) (i : ℕ) :
    entry (mapWhile (fun va => va ≤ 0x5b000000) true 0x48000000 mem) i =
      if 0x480 ≤ i ∧ i < 0x5b1 then secdesc (sectionAddr i) true else entry mem i := by
  refine entry_mapWhile true 0x480 0x131 (by omega) (fun j hj => ?_) ?_ mem i
  · rw [decide_eq_true_eq, BitVec.le_def, sectionAddr_toNat (by omega)]
    show _ ≤ 0x5b000000
    omega
  · decide

/-- The descriptors after `create_page_table`. A later one replaces an earlier one: the
    frame buffer that of the SDRAM around it. -/
theorem createPageTable_entry (mem : Mem) (i : ℕ) :
    entry (createPageTable mem) i =
      if i = 0xb00 then secdesc (sectionAddr 0x300) false
      else if i = 0x33c then secdesc (sectionAddr 0x33c) true
      else if 0x480 ≤ i ∧ i < 0x5b1 then secdesc (sectionAddr i) true
      else if 0x300 ≤ i ∧ i < 0x340 then secdesc (sectionAddr i) false
      else if i = 0x400 then secdesc (sectionAddr 0x400) false
      else if i = 0 then secdesc (sectionAddr 0) true
      else entry mem i := by
  have hlink := entry_createSecdesc (j := 0xb00) (by decide) (sectionAddr 0x300) false
  have hframe := entry_createSecdesc (j := 0x33c) (by decide) (sectionAddr 0x33c) true
  have hsram := entry_createSecdesc (j := 0x400) (by decide) (sectionAddr 0x400) false
  have hzero := entry_createSecdesc (j := 0) (by decide) (sectionAddr 0) true
  show entry (createSecdesc ttb (sectionAddr 0xb00) (sectionAddr 0x300) false _) i = _
  rw [hlink]
  show (if _ then _ else entry (createSecdesc ttb (sectionAddr 0x33c) (sectionAddr 0x33c) true _) i)
    = _
  rw [hframe, entry_mapRegisters, entry_mapSdram]
  show (if _ then _ else if _ then _ else if _ then _ else if _ then _ else
    entry (createSecdesc ttb (sectionAddr 0x400) (sectionAddr 0x400) false
      (createSecdesc ttb (sectionAddr 0) (sectionAddr 0) true mem)) i) = _
  rw [hsram, hzero]

/-! ## Lookups -/

/-- The low bits of a descriptor do not depend on the address. -/
theorem secdesc_and (pa : Word) (io : Bool) {mask : Word} (h : 0xfff00000#32 &&& mask = 0#32) :
    secdesc pa io &&& mask = (if io then mmuSecdescForIo else mmuSecdescForMem) &&& mask := by
  rw [secdesc, BitVec.and_or_distrib_right, BitVec.and_assoc, h, BitVec.and_zero, BitVec.zero_or]

theorem secdesc_type (pa : Word) (io : Bool) : secdesc pa io &&& 3#32 = 2#32 := by
  rw [secdesc_and pa io (by decide)]
  cases io <;> decide

theorem secdesc_base (pa : Word) (io : Bool) :
    secdesc pa io &&& 0xfff00000#32 = pa &&& 0xfff00000#32 := by
  have hflags : (if io then mmuSecdescForIo else mmuSecdescForMem) &&& 0xfff00000#32 = 0#32 := by
    cases io <;> decide
  rw [secdesc, BitVec.and_or_distrib_right, hflags, BitVec.or_zero, BitVec.and_assoc,
    BitVec.and_self]

/-- C and B are set for memory and clear for registers. -/
theorem secdesc_getLsbD (pa : Word) (io : Bool) {k : ℕ} (hk : k = 2 ∨ k = 3) :
    (secdesc pa io).getLsbD k = !io := by
  rcases hk with rfl | rfl
  · rw [secdesc, BitVec.getLsbD_or, BitVec.getLsbD_and]
    cases io <;> simp <;> decide
  · rw [secdesc, BitVec.getLsbD_or, BitVec.getLsbD_and]
    cases io <;> simp <;> decide

theorem and_offset_toNat (va : Word) : (va &&& 0xfffff#32).toNat = va.toNat % 0x100000 := by
  rw [BitVec.toNat_and]
  exact Nat.and_two_pow_sub_one_eq_mod va.toNat 20

theorem sectionAddr_and_base {j : ℕ} (hj : j < 4096) :
    sectionAddr j &&& 0xfff00000#32 = sectionAddr j := by
  have hoffset : sectionAddr j &&& 0xfffff#32 = 0#32 := by
    apply BitVec.eq_of_toNat_eq
    rw [and_offset_toNat, sectionAddr_toNat hj]
    exact Nat.mul_mod_left j 0x100000
  calc sectionAddr j &&& 0xfff00000#32
      = (sectionAddr j &&& 0xfff00000#32) ||| (sectionAddr j &&& 0xfffff#32) := by
        rw [hoffset, BitVec.or_zero]
    _ = sectionAddr j &&& (0xfff00000#32 ||| 0xfffff#32) := by rw [BitVec.and_or_distrib_left]
    _ = sectionAddr j := BitVec.and_allOnes

/-- The base of section `j` and the offset of `va`. -/
theorem section_or_offset {j : ℕ} (hj : j < 4096) (va : Word) :
    (sectionAddr j &&& 0xfff00000#32) ||| (va &&& 0xfffff#32) =
      BitVec.ofNat 32 (j * 0x100000 + va.toNat % 0x100000) := by
  have hoffset : va.toNat % 0x100000 < 2 ^ 20 := Nat.mod_lt _ (by decide)
  apply BitVec.eq_of_toNat_eq
  rw [sectionAddr_and_base hj, BitVec.toNat_or, and_offset_toNat, sectionAddr_toNat hj,
    BitVec.toNat_ofNat, Nat.mul_comm j]
  rw [show (0x100000 : ℕ) = 2 ^ 20 by rfl] at hoffset ⊢
  rw [← Nat.two_pow_add_eq_or_of_lt hoffset]
  omega

/-- An address whose descriptor is that of section `j`. -/
theorem firstLevel_of_secdesc {mem : Mem} {va : Word} {j : ℕ} {io : Bool} (hj : j < 4096)
    (h : entry mem (va.toNat / 0x100000) = secdesc (sectionAddr j) io) :
    firstLevel mem va =
      .mapped (BitVec.ofNat 32 (j * 0x100000 + va.toNat % 0x100000)) (!io) !io := by
  unfold firstLevel
  simp only [h]
  rw [secdesc_type, if_neg (by decide), if_pos rfl, secdesc_base, secdesc_getLsbD _ _ (.inr rfl),
    secdesc_getLsbD _ _ (.inl rfl), section_or_offset hj va]

/-! ## The documented map -/

/-- A range of virtual addresses that is mapped to `pa` on, with C and B both set
    (write-back) or both clear. -/
structure Region where
  lo : ℕ
  hi : ℕ
  pa : ℕ
  writeBack : Bool
  deriving DecidableEq

def Region.Contains (r : Region) (va : Word) : Prop := r.lo ≤ va.toNat ∧ va.toNat < r.hi

instance (r : Region) (va : Word) : Decidable (r.Contains va) := inferInstanceAs (Decidable (_ ∧ _))

/-- The table in the comment of `create_page_table` (mmu.c:28-48), with the frame buffer
    taken out of the SDRAM. -/
def regions : List Region :=
  [⟨0, 0x100000, 0, false⟩,
    ⟨0x30000000, 0x33c00000, 0x30000000, true⟩,
    ⟨0x33c00000, 0x33d00000, 0x33c00000, false⟩,
    ⟨0x33d00000, 0x34000000, 0x33d00000, true⟩,
    ⟨0x40000000, 0x40100000, 0x40000000, true⟩,
    ⟨0x48000000, 0x5b100000, 0x48000000, false⟩,
    ⟨0xb0000000, 0xb0100000, 0x30000000, true⟩]

theorem mem_regions {r : Region} (hr : r ∈ regions) :
    r = ⟨0, 0x100000, 0, false⟩ ∨ r = ⟨0x30000000, 0x33c00000, 0x30000000, true⟩ ∨
      r = ⟨0x33c00000, 0x33d00000, 0x33c00000, false⟩ ∨
      r = ⟨0x33d00000, 0x34000000, 0x33d00000, true⟩ ∨
      r = ⟨0x40000000, 0x40100000, 0x40000000, true⟩ ∨
      r = ⟨0x48000000, 0x5b100000, 0x48000000, false⟩ ∨
      r = ⟨0xb0000000, 0xb0100000, 0x30000000, true⟩ := by
  simpa only [regions, List.mem_cons, List.not_mem_nil, or_false] using hr

/-- Every address of the table is mapped as it says. -/
theorem createPageTable_lookup (mem : Mem) (va : Word) (r : Region) (hr : r ∈ regions)
    (hva : r.Contains va) :
    firstLevel (createPageTable mem) va =
      .mapped (BitVec.ofNat 32 (r.pa + (va.toNat - r.lo))) r.writeBack r.writeBack := by
  obtain ⟨hlo, hhi⟩ := hva
  have hlt := va.isLt
  -- it is enough to know the section that the descriptor of `va` points to
  have hmapped : ∀ j io, j < 4096 →
      entry (createPageTable mem) (va.toNat / 0x100000) = secdesc (sectionAddr j) io →
      j * 0x100000 + va.toNat % 0x100000 = r.pa + (va.toNat - r.lo) → r.writeBack = !io →
      firstLevel (createPageTable mem) va =
        .mapped (BitVec.ofNat 32 (r.pa + (va.toNat - r.lo))) r.writeBack r.writeBack := by
    intro j io hj hentry hpa hio
    rw [firstLevel_of_secdesc hj hentry, hpa, hio]
  have hentry := createPageTable_entry mem (va.toNat / 0x100000)
  rcases mem_regions hr with rfl | rfl | rfl | rfl | rfl | rfl | rfl <;> simp only at hlo hhi
  · rw [if_neg (by omega), if_neg (by omega), if_neg (by omega), if_neg (by omega),
      if_neg (by omega), if_pos (by omega)] at hentry
    exact hmapped 0 true (by decide) hentry (by simp only; omega) rfl
  · rw [if_neg (by omega), if_neg (by omega), if_neg (by omega), if_pos (by omega)] at hentry
    exact hmapped _ false (by omega) hentry (by simp only; omega) rfl
  · rw [if_neg (by omega), if_pos (by omega)] at hentry
    exact hmapped 0x33c true (by decide) hentry (by simp only; omega) rfl
  · rw [if_neg (by omega), if_neg (by omega), if_neg (by omega), if_pos (by omega)] at hentry
    exact hmapped _ false (by omega) hentry (by simp only; omega) rfl
  · rw [if_neg (by omega), if_neg (by omega), if_neg (by omega), if_neg (by omega),
      if_pos (by omega)] at hentry
    exact hmapped 0x400 false (by decide) hentry (by simp only; omega) rfl
  · rw [if_neg (by omega), if_neg (by omega), if_pos (by omega)] at hentry
    exact hmapped _ true (by omega) hentry (by simp only; omega) rfl
  · rw [if_pos (by omega)] at hentry
    exact hmapped 0x300 false (by decide) hentry (by simp only; omega) rfl

/-- An address of the frame buffer, with an arbitrary memory before. -/
theorem createPageTable_lookup_framebuffer :
    firstLevel (createPageTable fun _ => 0xa5) 0x33c12345 = .mapped 0x33c12345 false false :=
  createPageTable_lookup (fun _ => 0xa5) 0x33c12345 ⟨0x33c00000, 0x33d00000, 0x33c00000, false⟩
    (by decide) (by decide)

/-! ## Addresses that are not listed -/

/-- No range of the table contains the address. -/
def Unlisted (va : Word) : Prop := ∀ r ∈ regions, ¬ r.Contains va

instance (va : Word) : Decidable (Unlisted va) := inferInstanceAs (Decidable (∀ r ∈ regions, _))

theorem firstLevel_eq_fault_iff (mem : Mem) (va : Word) :
    firstLevel mem va = .fault ↔ entry mem (va.toNat / 0x100000) &&& 3#32 = 0#32 := by
  unfold firstLevel
  simp only
  split_ifs with h0 h2
  · exact ⟨fun _ => h0, fun _ => rfl⟩
  · exact ⟨nofun, fun h => absurd h h0⟩
  · exact ⟨nofun, fun h => absurd h h0⟩

/-- The descriptor of an address that is not listed is the one that was there before. -/
theorem createPageTable_entry_unlisted (mem : Mem) {va : Word} (h : Unlisted va) :
    entry (createPageTable mem) (va.toNat / 0x100000) = entry mem (va.toNat / 0x100000) := by
  have hout : ∀ lo hi pa wb, ⟨lo, hi, pa, wb⟩ ∈ regions → va.toNat < lo ∨ hi ≤ va.toNat := by
    intro lo hi pa wb hr
    by_contra hcon
    exact h _ hr ⟨by simp only; omega, by simp only; omega⟩
  have h0 := hout 0 0x100000 0 false (by decide)
  have h1 := hout 0x30000000 0x33c00000 0x30000000 true (by decide)
  have h2 := hout 0x33c00000 0x33d00000 0x33c00000 false (by decide)
  have h3 := hout 0x33d00000 0x34000000 0x33d00000 true (by decide)
  have h4 := hout 0x40000000 0x40100000 0x40000000 true (by decide)
  have h5 := hout 0x48000000 0x5b100000 0x48000000 false (by decide)
  have h6 := hout 0xb0000000 0xb0100000 0x30000000 true (by decide)
  rw [createPageTable_entry, if_neg (by omega), if_neg (by omega), if_neg (by omega),
    if_neg (by omega), if_neg (by omega), if_neg (by omega)]

/-- The addresses that are not listed all fault iff the descriptors of their sections were
    fault descriptors before. -/
theorem unlisted_fault_iff (mem : Mem) :
    (∀ va, Unlisted va → firstLevel (createPageTable mem) va = .fault) ↔
      ∀ va, Unlisted va → entry mem (va.toNat / 0x100000) &&& 3#32 = 0#32 := by
  constructor
  · intro h va hva
    have hfault := (firstLevel_eq_fault_iff _ va).mp (h va hva)
    rwa [createPageTable_entry_unlisted mem hva] at hfault
  · intro h va hva
    rw [firstLevel_eq_fault_iff, createPageTable_entry_unlisted mem hva]
    exact h va hva

/-- A memory of zeros. -/
theorem unlisted_fault_of_zeros :
    ∀ va, Unlisted va → firstLevel (createPageTable fun _ => 0) va = .fault := by
  have hentry : ∀ i, entry (fun _ => 0) i = 0#32 := fun _ => by
    show (0#8 ++ 0#8 ++ 0#8 ++ 0#8 : Word) = 0#32
    decide
  refine (unlisted_fault_iff fun _ => 0).mpr fun va _ => ?_
  rw [hentry]
  decide

/-- A memory in which every byte is 0x12: 0x60000000 is mapped, to 0x12100000. -/
theorem unlisted_mapped :
    ¬ ∀ (mem : Mem) (va : Word), Unlisted va → firstLevel (createPageTable mem) va = .fault := by
  intro h
  have hunlisted : Unlisted 0x60000000 := by decide
  have hfault := (firstLevel_eq_fault_iff _ _).mp (h (fun _ => 0x12) 0x60000000 hunlisted)
  rw [createPageTable_entry_unlisted _ hunlisted] at hfault
  exact absurd hfault (by decide)

end Jz2440.Boot
