import Jz2440.Common.Loop
import Jz2440.Common.Memory
import Mathlib.Data.List.GetD

/-!
# The parameter tags for the kernel

Model of `boot.c` and of the macros of `setup.h` in
`hard_driver/drivers_and_test/32th_my_bootloader/3th_detect_bad_block`. The boot
loader leaves a list of tags at 0x30000100. A tag starts with its size in words and
its kind; the next tag follows at the end of it, and a tag of size 0 ends the list.

The kernel reads the list with `for_each_tag`. What it finds in a tag is the value of
type `Tag` that `decode` makes of it.

* `strlen_yields`, `strcpy_yields`: the two loops over the command line.
* `setupTags_wellFormed`: the list decodes to what was written, for every command line.
-/

namespace Jz2440.Boot

open Jz2440.Common

/-! ## Strings -/

/-- A NUL-terminated string: its characters, without the NUL. -/
structure CString where
  bytes : List Byte
  noNul : ∀ b ∈ bytes, b ≠ 0

instance : DecidableEq CString := fun str str' =>
  decidable_of_iff (str.bytes = str'.bytes)
    ⟨fun h => by cases str; cases str'; cases h; rfl, congrArg CString.bytes⟩

/-- `str[i]`, up to the NUL. -/
def CString.get (str : CString) (i : ℕ) : Byte := str.bytes.getD i 0

theorem CString.get_ne_zero (str : CString) {i : ℕ} (hi : i < str.bytes.length) :
    str.get i ≠ 0 := by
  rw [get, List.getD_eq_getElem _ _ hi]
  exact str.noNul _ (List.getElem_mem hi)

theorem CString.get_length (str : CString) : str.get str.bytes.length = 0 :=
  List.getD_eq_default _ _ le_rfl

/-- One pass of the loop of `strlen`. -/
def strlenPass (str : CString) (i : ℕ) : Pass ℕ ℕ :=
  if str.get i ≠ 0 then .again (i + 1) else .leave i

/-- `strlen` (boot.c:36-44). -/
def strlen (fuel : ℕ) (str : CString) : Option ℕ := loop (strlenPass str) fuel 0

theorem strlen_yields (str : CString) : Yields (fun fuel => strlen fuel str) str.bytes.length := by
  refine Returns.of_count (fun i => i) str.bytes.length rfl (fun i hi => ?_) ?_
  · exact if_pos (str.get_ne_zero hi)
  · exact if_neg (not_not.mpr str.get_length)

/-- One pass of the loop of `strcpy`: the number of bytes copied so far, and the memory. -/
def strcpyPass (dest : ℕ) (src : CString) (s : ℕ × Mem) : Pass (ℕ × Mem) Mem :=
  let mem := Function.update s.2 (dest + s.1) (src.get s.1)
  if src.get s.1 ≠ 0 then .again (s.1 + 1, mem) else .leave mem

/-- `strcpy` (boot.c:46-49). -/
def strcpy (fuel dest : ℕ) (src : CString) (mem : Mem) : Option Mem :=
  loop (strcpyPass dest src) fuel (0, mem)

theorem strcpy_yields (dest : ℕ) (src : CString) (mem : Mem) :
    Yields (fun fuel => strcpy fuel dest src mem)
      (storeRange mem dest (src.bytes.length + 1) src.get) := by
  refine Returns.of_count (fun k => (k, storeRange mem dest k src.get)) src.bytes.length
    (by rw [storeRange_zero]) (fun k hk => ?_) ?_
  · simp only [strcpyPass, storeRange_succ]
    exact if_pos (src.get_ne_zero hk)
  · simp only [strcpyPass, storeRange_succ]
    exact if_neg (not_not.mpr src.get_length)

/-! ## Writing the tags -/

def atagNone : Word := 0x00000000
def atagCore : Word := 0x54410001
def atagMem : Word := 0x54410002
def atagCmdline : Word := 0x54410009

/-- `tag_next` (setup.h:247); `hdr.size` is the first word of a tag. -/
def tagNext (mem : Mem) (t : ℕ) : ℕ := t + 4 * (loadWord mem t).toNat

/-- `tag_size` (setup.h:248) of a type of `n` bytes. -/
def tagSize (n : ℕ) : Word := BitVec.ofNat 32 ((8 + n) >>> 2)

/-- The pointer `params` and the memory. -/
structure TagState where
  params : ℕ
  mem : Mem

/-- `setup_start_tag` (boot.c:11-23). -/
def setupStartTag (mem : Mem) : TagState :=
  let params := 0x30000100
  let mem := storeWord mem (params + 4) atagCore
  let mem := storeWord mem params (tagSize 12)
  let mem := storeWord mem (params + 8) 0
  let mem := storeWord mem (params + 12) 0
  let mem := storeWord mem (params + 16) 0
  ⟨tagNext mem params, mem⟩

/-- `setup_memory_tags` (boot.c:25-34); `struct tag_mem32` holds the size first. -/
def setupMemoryTags (s : TagState) : TagState :=
  let mem := storeWord s.mem (s.params + 4) atagMem
  let mem := storeWord mem s.params (tagSize 8)
  let mem := storeWord mem (s.params + 12) 0x30000000
  let mem := storeWord mem (s.params + 8) (64 * 1024 * 1024)
  ⟨tagNext mem s.params, mem⟩

/-- `setup_commandline_tag` (boot.c:51-61). -/
def setupCommandlineTag (fuel : ℕ) (cmdline : CString) (s : TagState) : Option TagState :=
  (strlen fuel cmdline).bind fun n =>
    let len := n + 1
    let mem := storeWord s.mem (s.params + 4) atagCmdline
    let mem := storeWord mem s.params (BitVec.ofNat 32 ((8 + len + 3) >>> 2))
    (strcpy fuel (s.params + 8) cmdline mem).map fun mem => ⟨tagNext mem s.params, mem⟩

/-- `setup_end_tag` (boot.c:63-67). -/
def setupEndTag (s : TagState) : Mem :=
  let mem := storeWord s.mem (s.params + 4) atagNone
  storeWord mem s.params 0

/-- The four calls of `main` (boot.c:88-91). -/
def setupTags (fuel : ℕ) (cmdline : CString) (mem : Mem) : Option Mem :=
  (setupCommandlineTag fuel cmdline (setupMemoryTags (setupStartTag mem))).map setupEndTag

/-! ## Reading the tags -/

/-- One pass of `for_each_tag` (setup.h:250-251): the current tag and those before it. -/
def forEachTagPass (mem : Mem) (s : ℕ × List ℕ) : Pass (ℕ × List ℕ) (ℕ × List ℕ) :=
  if loadWord mem s.1 ≠ 0 then .again (tagNext mem s.1, s.2 ++ [s.1]) else .leave s

/-- `for_each_tag`: where it stops, and the tags that it has visited. -/
def forEachTag (fuel : ℕ) (mem : Mem) (base : ℕ) : Option (ℕ × List ℕ) :=
  loop (forEachTagPass mem) fuel (base, [])

/-- What the kernel finds in a tag. -/
inductive Tag
  | core (flags pagesize rootdev : Word)
  | mem (size start : Word)
  | cmdline (chars : List Byte)
  | other
  deriving DecidableEq

/-- The number of bytes of a tag. -/
def tagBytes (mem : Mem) (t : ℕ) : ℕ := 4 * (loadWord mem t).toNat

/-- The characters from `a` on up to a NUL, but at most `n`. -/
def readString (mem : Mem) (a n : ℕ) : List Byte :=
  ((List.range n).map fun k => mem (a + k)).takeWhile fun b => b ≠ 0

def decode (mem : Mem) (t : ℕ) : Tag :=
  if loadWord mem (t + 4) = atagCore then
    .core (loadWord mem (t + 8)) (loadWord mem (t + 12)) (loadWord mem (t + 16))
  else if loadWord mem (t + 4) = atagMem then
    .mem (loadWord mem (t + 8)) (loadWord mem (t + 12))
  else if loadWord mem (t + 4) = atagCmdline then
    .cmdline (readString mem (t + 8) (tagBytes mem t - 8))
  else .other

/-- The whole string is in the memory from `a` on: reading gives it back. -/
theorem readString_eq (str : CString) {mem : Mem} {a n : ℕ} (hn : str.bytes.length < n)
    (h : ∀ k ≤ str.bytes.length, mem (a + k) = str.get k) : readString mem a n = str.bytes := by
  obtain ⟨rest, rfl⟩ := Nat.exists_eq_add_of_lt hn
  have hchars : (List.range str.bytes.length).map (fun k => mem (a + k)) = str.bytes := by
    apply List.ext_getElem (by simp)
    intro k hk hk'
    rw [List.getElem_map, List.getElem_range, h k hk'.le, CString.get,
      List.getD_eq_getElem _ _ hk']
  have hnul : mem (a + str.bytes.length) = 0 := (h _ le_rfl).trans str.get_length
  rw [readString, Nat.add_assoc, List.range_add, List.map_append, hchars,
    List.takeWhile_append_of_pos fun b hb => by simpa using str.noNul b hb,
    List.range_succ_eq_map, List.map_cons, List.map_cons, Nat.add_zero, hnul,
    List.takeWhile_cons_of_neg (by simp), List.append_nil]

/-! ## What each call leaves -/

theorem setupStartTag_params (mem : Mem) : (setupStartTag mem).params = 0x30000114 := by
  simp (disch := omega) only [setupStartTag, tagNext, loadWord_storeWord_of_disjoint,
    loadWord_storeWord_self]
  rfl

theorem setupStartTag_words (mem : Mem) :
    loadWord (setupStartTag mem).mem 0x30000100 = 5 ∧
      loadWord (setupStartTag mem).mem (0x30000100 + 4) = atagCore ∧
      loadWord (setupStartTag mem).mem (0x30000100 + 8) = 0 ∧
      loadWord (setupStartTag mem).mem (0x30000100 + 12) = 0 ∧
      loadWord (setupStartTag mem).mem (0x30000100 + 16) = 0 := by
  simp (disch := omega) only [setupStartTag, loadWord_storeWord_of_disjoint,
    loadWord_storeWord_self, and_true]
  rfl

theorem setupMemoryTags_params (s : TagState) : (setupMemoryTags s).params = s.params + 16 := by
  simp (disch := omega) only [setupMemoryTags, tagNext, loadWord_storeWord_of_disjoint,
    loadWord_storeWord_self]
  rfl

theorem setupMemoryTags_words (s : TagState) :
    loadWord (setupMemoryTags s).mem s.params = 4 ∧
      loadWord (setupMemoryTags s).mem (s.params + 4) = atagMem ∧
      loadWord (setupMemoryTags s).mem (s.params + 8) = 0x4000000 ∧
      loadWord (setupMemoryTags s).mem (s.params + 12) = 0x30000000 := by
  simp (disch := omega) only [setupMemoryTags, loadWord_storeWord_of_disjoint,
    loadWord_storeWord_self, and_true, true_and]
  exact ⟨rfl, rfl⟩

theorem setupMemoryTags_below (s : TagState) :
    SameBelow s.params s.mem (setupMemoryTags s).mem := by
  intro x hx
  simp (disch := omega) only [setupMemoryTags, storeWord_of_disjoint]

/-- The size in words of the tag for a command line of `n` characters. -/
def cmdlineWords (n : ℕ) : ℕ := (8 + (n + 1) + 3) >>> 2

/-- The tag ends at the first word boundary after the NUL. -/
theorem cmdlineWords_mul (n : ℕ) :
    8 + (n + 1) ≤ 4 * cmdlineWords n ∧ 4 * cmdlineWords n < 8 + (n + 1) + 4 := by
  rw [cmdlineWords, Nat.shiftRight_eq_div_pow]
  omega

/-- What `setup_commandline_tag` has done when it has taken `s` to `s'`. -/
structure CmdlineTag (cmdline : CString) (s s' : TagState) : Prop where
  params : s'.params = s.params + 4 * cmdlineWords cmdline.bytes.length
  size : (loadWord s'.mem s.params).toNat = cmdlineWords cmdline.bytes.length
  tag : loadWord s'.mem (s.params + 4) = atagCmdline
  chars : ∀ k ≤ cmdline.bytes.length, s'.mem (s.params + 8 + k) = cmdline.get k
  below : SameBelow s.params s.mem s'.mem

theorem setupCommandlineTag_yields (cmdline : CString) (s : TagState)
    (hfit : cmdline.bytes.length < 2 ^ 31) :
    ∃ s', Yields (fun fuel => setupCommandlineTag fuel cmdline s) s' ∧ CmdlineTag cmdline s s' := by
  have hcopy := (strcpy_yields (s.params + 8) cmdline (storeWord (storeWord s.mem (s.params + 4)
    atagCmdline) s.params (BitVec.ofNat 32 (cmdlineWords cmdline.bytes.length)))).map
    fun mem => (⟨tagNext mem s.params, mem⟩ : TagState)
  refine ⟨_, (strlen_yields cmdline).bind hcopy, ?_⟩
  have hlt : cmdlineWords cmdline.bytes.length < 2 ^ 32 := by
    have := cmdlineWords_mul cmdline.bytes.length
    omega
  have hsize : (BitVec.ofNat 32 (cmdlineWords cmdline.bytes.length)).toNat =
      cmdlineWords cmdline.bytes.length := by
    rw [BitVec.toNat_ofNat]
    exact Nat.mod_eq_of_lt hlt
  refine ⟨?_, ?_, ?_, fun k hk => ?_, fun x hx => ?_⟩
  · simp (disch := omega) only [tagNext, loadWord_storeRange_of_disjoint,
      loadWord_storeWord_self, hsize]
  · simp (disch := omega) only [loadWord_storeRange_of_disjoint, loadWord_storeWord_self, hsize]
  · simp (disch := omega) only [loadWord_storeRange_of_disjoint, loadWord_storeWord_of_disjoint,
      loadWord_storeWord_self]
  · exact storeRange_at _ _ _ (Nat.lt_succ_of_le hk)
  · simp (disch := omega) only [storeRange_of_disjoint, storeWord_of_disjoint]

theorem setupEndTag_words (s : TagState) :
    loadWord (setupEndTag s) s.params = 0 ∧
      loadWord (setupEndTag s) (s.params + 4) = atagNone := by
  simp (disch := omega) only [setupEndTag, loadWord_storeWord_of_disjoint,
    loadWord_storeWord_self, and_true]

theorem setupEndTag_below (s : TagState) : SameBelow s.params s.mem (setupEndTag s) := by
  intro x hx
  simp (disch := omega) only [setupEndTag, storeWord_of_disjoint]

/-! ## The whole list -/

/-- The words of the list for `cmdline`. -/
structure TagWords (cmdline : CString) (mem : Mem) : Prop where
  core : loadWord mem 0x30000100 = 5 ∧ loadWord mem 0x30000104 = atagCore ∧
    loadWord mem 0x30000108 = 0 ∧ loadWord mem 0x3000010c = 0 ∧ loadWord mem 0x30000110 = 0
  mem32 : loadWord mem 0x30000114 = 4 ∧ loadWord mem 0x30000118 = atagMem ∧
    loadWord mem 0x3000011c = 0x4000000 ∧ loadWord mem 0x30000120 = 0x30000000
  cmdlineSize : (loadWord mem 0x30000124).toNat = cmdlineWords cmdline.bytes.length
  cmdlineTag : loadWord mem 0x30000128 = atagCmdline
  chars : ∀ k ≤ cmdline.bytes.length, mem (0x3000012c + k) = cmdline.get k
  endMark : loadWord mem (0x30000124 + 4 * cmdlineWords cmdline.bytes.length) = 0 ∧
    loadWord mem (0x30000124 + 4 * cmdlineWords cmdline.bytes.length + 4) = atagNone

theorem setupTags_words (cmdline : CString) (mem : Mem) (hfit : cmdline.bytes.length < 2 ^ 31) :
    ∃ mem', Yields (fun fuel => setupTags fuel cmdline mem) mem' ∧ TagWords cmdline mem' := by
  have hparams := setupStartTag_params mem
  have hcore := setupStartTag_words mem
  have hparams₂ := setupMemoryTags_params (setupStartTag mem)
  have hmem32 := setupMemoryTags_words (setupStartTag mem)
  have hbelow₂ := setupMemoryTags_below (setupStartTag mem)
  rw [hparams] at hparams₂ hmem32 hbelow₂
  obtain ⟨s, hyields, hparams₃, hsize, htag, hchars, hbelow₃⟩ :=
    setupCommandlineTag_yields cmdline (setupMemoryTags (setupStartTag mem)) hfit
  rw [hparams₂] at hparams₃ hsize htag hchars hbelow₃
  have hbelow₄ := setupEndTag_below s
  have hend := setupEndTag_words s
  rw [hparams₃] at hbelow₄ hend
  have hW := cmdlineWords_mul cmdline.bytes.length
  -- each call leaves alone what is below its own tag
  have hfrom₂ := hbelow₃.trans hbelow₄ (by omega)
  have hfrom₁ := hbelow₂.trans hfrom₂ (by omega)
  refine ⟨setupEndTag s, hyields.map setupEndTag, ?_, ?_, ?_, ?_, fun k hk => ?_, hend⟩
  · simp (disch := omega) only [hfrom₁.loadWord_eq]
    exact hcore
  · simp (disch := omega) only [hfrom₂.loadWord_eq]
    exact hmem32
  · rw [hbelow₄.loadWord_eq (by omega)]
    exact hsize
  · rw [hbelow₄.loadWord_eq (by omega)]
    exact htag
  · rw [hbelow₄ _ (by omega)]
    exact hchars k hk

/-- The list in `mem` is that of the boot loader for `cmdline`. -/
structure WellFormed (cmdline : CString) (mem : Mem) (stop : ℕ) (visited : List ℕ) : Prop where
  /-- the walk visits these tags and stops at the end of the last one -/
  walk : Yields (fun fuel => forEachTag fuel mem 0x30000100) (stop, visited)
  decoded : visited.map (decode mem) =
    [.core 0 0 0, .mem 0x4000000 0x30000000, .cmdline cmdline.bytes]
  /-- each tag ends before the next one starts, and the last one before the end mark -/
  disjoint : (visited ++ [stop]).Pairwise fun t u => t + tagBytes mem t ≤ u
  /-- the string and its NUL are inside of the last tag -/
  inside : ∀ t ∈ visited.getLast?, t + 8 + cmdline.bytes.length + 1 ≤ t + tagBytes mem t ∧
    ∀ k ≤ cmdline.bytes.length, mem (t + 8 + k) = cmdline.get k
  endMark : loadWord mem stop = 0 ∧ loadWord mem (stop + 4) = atagNone

section WellFormed

variable {cmdline : CString} {mem : Mem} (h : TagWords cmdline mem)
include h

theorem TagWords.tagBytes_eq :
    tagBytes mem 0x30000100 = 20 ∧ tagBytes mem 0x30000114 = 16 ∧
      tagBytes mem 0x30000124 = 4 * cmdlineWords cmdline.bytes.length := by
  refine ⟨?_, ?_, ?_⟩
  · rw [tagBytes, h.core.1]
    rfl
  · rw [tagBytes, h.mem32.1]
    rfl
  · rw [tagBytes, h.cmdlineSize]

theorem TagWords.walk : Yields (fun fuel => forEachTag fuel mem 0x30000100)
    (0x30000124 + 4 * cmdlineWords cmdline.bytes.length, [0x30000100, 0x30000114, 0x30000124]) := by
  have hpass : ∀ t visited, loadWord mem t ≠ 0 →
      forEachTagPass mem (t, visited) = .again (t + tagBytes mem t, visited ++ [t]) :=
    fun _ _ ht => if_pos ht
  obtain ⟨hcore, hmem32, hcmdline⟩ := h.tagBytes_eq
  have hcmdlineSize : loadWord mem 0x30000124 ≠ 0 := by
    intro hzero
    have hW := cmdlineWords_mul cmdline.bytes.length
    rw [← h.cmdlineSize, hzero] at hW
    exact absurd hW.1 (by simp)
  have h₁ := hpass 0x30000100 [] (by rw [h.core.1]; decide)
  have h₂ := hpass 0x30000114 [0x30000100] (by rw [h.mem32.1]; decide)
  have h₃ := hpass 0x30000124 [0x30000100, 0x30000114] hcmdlineSize
  rw [hcore] at h₁
  rw [hmem32] at h₂
  rw [hcmdline] at h₃
  exact Returns.of_again h₁ (.of_again h₂ (.of_again h₃
    (.of_leave (if_neg (not_not.mpr h.endMark.1)))))

theorem TagWords.decoded : [0x30000100, 0x30000114, 0x30000124].map (decode mem) =
    [.core 0 0 0, .mem 0x4000000 0x30000000, .cmdline cmdline.bytes] := by
  obtain ⟨-, hcoreTag, hflags, hpagesize, hrootdev⟩ := h.core
  obtain ⟨-, hmemTag, hsize, hstart⟩ := h.mem32
  have hcore : decode mem 0x30000100 = .core 0 0 0 := by
    rw [decode, if_pos hcoreTag, hflags, hpagesize, hrootdev]
  have hmem : decode mem 0x30000114 = .mem 0x4000000 0x30000000 := by
    rw [decode, hmemTag, if_neg (by decide), if_pos rfl, hsize, hstart]
  have hstring := readString_eq cmdline (n := tagBytes mem 0x30000124 - 8) (by
    have hW := cmdlineWords_mul cmdline.bytes.length
    rw [h.tagBytes_eq.2.2]
    omega) h.chars
  have hcmdline : decode mem 0x30000124 = .cmdline cmdline.bytes := by
    rw [decode, h.cmdlineTag, if_neg (by decide), if_neg (by decide), if_pos rfl, hstring]
  rw [List.map_cons, List.map_cons, List.map_cons, hcore, hmem, hcmdline, List.map_nil]

theorem TagWords.wellFormed :
    WellFormed cmdline mem (0x30000124 + 4 * cmdlineWords cmdline.bytes.length)
      [0x30000100, 0x30000114, 0x30000124] := by
  obtain ⟨hcore, hmem32, hcmdline⟩ := h.tagBytes_eq
  have hW := cmdlineWords_mul cmdline.bytes.length
  refine ⟨h.walk, h.decoded, ?_, fun t ht => ?_, h.endMark⟩
  · simp only [List.cons_append, List.nil_append, List.pairwise_cons, List.forall_mem_cons, hcore,
      hmem32, hcmdline, List.not_mem_nil, false_imp_iff, implies_true, List.Pairwise.nil, and_true]
    omega
  · obtain rfl : 0x30000124 = t := Option.some.inj ht
    rw [hcmdline]
    exact ⟨by omega, h.chars⟩

end WellFormed

/-- The calls of the boot loader leave a well-formed list, for every command line that fits
    below the kernel. -/
theorem setupTags_wellFormed (cmdline : CString) (mem : Mem)
    (hfit : 0x3000012c + cmdline.bytes.length + 1 ≤ 0x30008000) :
    ∃ mem' stop visited, Yields (fun fuel => setupTags fuel cmdline mem) mem' ∧
      WellFormed cmdline mem' stop visited := by
  obtain ⟨mem', hyields, hwords⟩ := setupTags_words cmdline mem (by omega)
  exact ⟨mem', _, _, hyields, hwords.wellFormed⟩

/-- A command line of three characters, over a memory of 0xa5. -/
theorem setupTags_wellFormed_abc :
    ∃ mem' stop visited, Yields (fun fuel => setupTags fuel ⟨[0x61, 0x62, 0x63], by decide⟩
        fun _ => 0xa5) mem' ∧
      WellFormed ⟨[0x61, 0x62, 0x63], by decide⟩ mem' stop visited :=
  setupTags_wellFormed ⟨[0x61, 0x62, 0x63], by decide⟩ (fun _ => 0xa5) (by decide)

end Jz2440.Boot
