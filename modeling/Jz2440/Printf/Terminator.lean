import Jz2440.Boot.Tags
import Jz2440.Printf.Format

/-!
# Formats in memory

`Printf/Format.lean` takes the format as the list of its characters. Here `my_vprintf` of
`my_printf.c` reads it byte by byte through its pointer. Only the head of the loop looks for
the NUL, but the pointer is also advanced inside a pass. If the format ends inside a
conversion (`"%"`, `"%0"`, `"%5"`), then the `switch` takes the NUL for the letter of the
conversion and prints it. The `fmt++` of the loop steps over it, and what stands in memory
behind the format is printed as well.

* `printsAt_of_loop`: where the list model prints a text, so does this one, in at most as many
  passes as the format has characters.
* `steps_over`: where it does not, either an argument does not fit, or the loop goes on behind
  the NUL.
* `exists_prints_iff`: where the list model prints a text.
* `printsAlone_iff`: what is printed depends only on the format exactly there.
-/

namespace Jz2440.Printf

open Jz2440.Common
open Jz2440.Boot (CString)

/-! ## The loop on memory -/

/-- A byte as a character. -/
def toChar (b : Byte) : Char := Char.ofNat b.toNat

/-- `*fmt`. -/
def charAt (mem : Mem) (fmt : ℕ) : Char := toChar (mem fmt)

/-- One pass of the loop that reads `maxwidth` (my_printf.c:86-90), on `fmt` and
    `maxwidth`. -/
def widthPass (mem : Mem) (s : ℕ × Int32) : Pass (ℕ × Int32) (ℕ × Int32) :=
  let c := charAt mem s.1
  if '0' ≤ c ∧ c ≤ '9' then .again (s.1 + 1, s.2 * 10 + .ofNat (c.toNat - '0'.toNat))
  else .leave s

/-- What stands before the letter of a conversion (my_printf.c:76-90): `lead`, `maxwidth`, and
    `fmt` behind it. -/
def directiveAt (mem : Mem) (fuel fmt : ℕ) : Option (Char × Int32 × ℕ) :=
  let lead := if charAt mem fmt = '0' then '0' else ' '
  let fmt := if charAt mem fmt = '0' then fmt + 1 else fmt
  (loop (widthPass mem) fuel (fmt, 0)).map fun s => (lead, s.2, s.1)

/-- The pointer to the rest of the format, the rest of the arguments, and the text so far. -/
structure PrintStateAt where
  fmt : ℕ
  args : List Arg
  out : List Char

/-- One pass of the loop of `my_vprintf` (my_printf.c:70-104). -/
def vprintfPassAt (mem : Mem) (fuel : ℕ) (s : PrintStateAt) :
    Option (Pass PrintStateAt (Option (List Char))) :=
  if charAt mem s.fmt = '\x00' then some (.leave (some s.out))
  else if charAt mem s.fmt ≠ '%' then
    some (.again ⟨s.fmt + 1, s.args, s.out ++ [charAt mem s.fmt]⟩)
  else
    (directiveAt mem fuel (s.fmt + 1)).map fun (lead, maxwidth, fmt) =>
      match conversion (charAt mem fmt) lead maxwidth s.args with
      | none => .leave none
      | some (text, args) => .again ⟨fmt + 1, args, s.out ++ text⟩

/-- The loop of `my_vprintf` from a state on. -/
def vprintfFrom (mem : Mem) (s : PrintStateAt) (fuel : ℕ) : Option (Option (List Char)) :=
  loopM (vprintfPassAt mem) fuel s

/-- `my_vprintf` (my_printf.c:65-106). -/
def myVprintfAt (mem : Mem) (fmt : ℕ) (args : List Arg) (fuel : ℕ) : Option (Option (List Char)) :=
  vprintfFrom mem ⟨fmt, args, []⟩ fuel

/-! ## What a pass of the list model can do -/

/-- The passes of the loop over the list of characters. -/
inductive PassCase : PrintState → Pass PrintState (Option (List Char)) → Prop
  | done (args : List Arg) (out : List Char) : PassCase ⟨[], args, out⟩ (.leave (some out))
  | char {c : Char} (fmt : List Char) (args : List Arg) (out : List Char) (hc : c ≠ '%') :
      PassCase ⟨c :: fmt, args, out⟩ (.again ⟨fmt, args, out ++ [c]⟩)
  | cut {fmt : List Char} (args : List Arg) (out : List Char)
      (hfmt : (readDirective fmt).2.2 = []) : PassCase ⟨'%' :: fmt, args, out⟩ (.leave none)
  | misfit {fmt rest : List Char} {lead c : Char} {maxwidth : Int32} {args : List Arg}
      (out : List Char) (hfmt : readDirective fmt = (lead, maxwidth, c :: rest))
      (hconv : conversion c lead maxwidth args = none) :
      PassCase ⟨'%' :: fmt, args, out⟩ (.leave none)
  | convert {fmt rest : List Char} {lead c : Char} {maxwidth : Int32} {args args' : List Arg}
      {text : List Char} (out : List Char) (hfmt : readDirective fmt = (lead, maxwidth, c :: rest))
      (hconv : conversion c lead maxwidth args = some (text, args')) :
      PassCase ⟨'%' :: fmt, args, out⟩ (.again ⟨rest, args', out ++ text⟩)

theorem vprintfPass_cases {s : PrintState} {r : Pass PrintState (Option (List Char))}
    (h : vprintfPass s = r) : PassCase s r := by
  subst h
  obtain ⟨_ | ⟨c, fmt⟩, args, out⟩ := s
  · exact .done args out
  · by_cases hc : c = '%'
    · subst hc
      rcases hdir : readDirective fmt with ⟨lead, maxwidth, rest⟩
      cases rest with
      | nil =>
        simp only [vprintfPass, ne_eq, not_true_eq_false, if_false, hdir]
        exact .cut args out (by rw [hdir])
      | cons c rest =>
        cases hconv : conversion c lead maxwidth args with
        | none =>
          simp only [vprintfPass, ne_eq, not_true_eq_false, if_false, hdir, hconv]
          exact .misfit out hdir hconv
        | some r =>
          simp only [vprintfPass, ne_eq, not_true_eq_false, if_false, hdir, hconv]
          exact .convert out hdir hconv
    · simp only [vprintfPass, ne_eq, hc, not_false_eq_true, if_true]
      exact .char fmt args out hc

theorem length_readWidth_le (fmt : List Char) (w : Int32) :
    (readWidth fmt w).2.length ≤ fmt.length := by
  induction fmt generalizing w with
  | nil => exact le_rfl
  | cons c fmt ih =>
    rw [readWidth]
    split_ifs
    · exact (ih _).trans (Nat.le_succ _)
    · exact le_rfl

theorem length_readDirective_le (fmt : List Char) :
    (readDirective fmt).2.2.length ≤ fmt.length := by
  unfold readDirective
  split
  · exact (length_readWidth_le _ _).trans (Nat.le_succ _)
  · exact length_readWidth_le _ _

/-- A pass that comes back to the head has read at least one character. -/
theorem length_of_again {s s' : PrintState} (h : vprintfPass s = .again s') :
    s'.fmt.length < s.fmt.length := by
  cases vprintfPass_cases h with
  | char fmt args out hc => exact Nat.lt_succ_self _
  | @convert fmt rest lead c maxwidth args args' text out hfmt hconv =>
    have hle := length_readDirective_le fmt
    rw [hfmt, List.length_cons] at hle
    exact Nat.lt_succ_of_lt hle

theorem exists_loop_vprintfPass (s : PrintState) :
    ∃ n r, loop vprintfPass n s = some r := by
  have hpass : ∀ n (t : PrintState), t.fmt.length = n →
      (∃ n' t', vprintfPass t = .again t' ∧ t'.fmt.length = n' ∧ n' < n) ∨
        ∃ r, vprintfPass t = .leave r ∧ True := by
    rintro n t rfl
    cases hpass : vprintfPass t with
    | again t' => exact .inl ⟨t'.fmt.length, t', rfl, rfl, length_of_again hpass⟩
    | leave r => exact .inr ⟨r, rfl, trivial⟩
  obtain ⟨r, hr, -⟩ := loop_within (s := s) _ _ hpass rfl (Nat.lt_succ_self _)
  exact ⟨_, r, hr⟩

/-! ## A format in memory -/

/-- From `p` on there are the characters `fmt`, and their NUL is at `stop`. -/
def TextAt (mem : Mem) (stop : ℕ) : ℕ → List Char → Prop
  | p, [] => p = stop ∧ charAt mem p = '\x00'
  | p, c :: fmt => charAt mem p = c ∧ c ≠ '\x00' ∧ TextAt mem stop (p + 1) fmt

section Memory

variable {mem : Mem} {stop p : ℕ} {fmt : List Char}

theorem widthLoop_of_textAt (h : TextAt mem stop p fmt) (w : Int32) :
    ∃ q, TextAt mem stop q (readWidth fmt w).2 ∧ ∀ fuel, fmt.length < fuel →
      loop (widthPass mem) fuel (p, w) = some (q, (readWidth fmt w).1) := by
  induction fmt generalizing p w with
  | nil =>
    refine ⟨p, h, fun fuel hfuel => ?_⟩
    obtain ⟨fuel, rfl⟩ := Nat.exists_eq_add_of_le' hfuel
    apply loop_succ_leave
    simp only [widthPass, h.2]
    exact if_neg (by decide)
  | cons c fmt ih =>
    obtain ⟨hchar, hnul, hrest⟩ := h
    rw [readWidth]
    by_cases hdigit : '0' ≤ c ∧ c ≤ '9'
    · rw [if_pos hdigit]
      obtain ⟨q, hq, hloop⟩ := ih hrest (w * 10 + .ofNat (c.toNat - '0'.toNat))
      refine ⟨q, hq, fun fuel hfuel => ?_⟩
      obtain ⟨fuel, rfl⟩ := Nat.exists_eq_add_of_le' (Nat.zero_lt_of_lt hfuel)
      rw [List.length_cons, Nat.add_lt_add_iff_right] at hfuel
      rw [loop_succ_again (by simp only [widthPass, hchar, if_pos hdigit]; rfl)]
      exact hloop fuel hfuel
    · rw [if_neg hdigit]
      refine ⟨p, ⟨hchar, hnul, hrest⟩, fun fuel hfuel => ?_⟩
      obtain ⟨fuel, rfl⟩ := Nat.exists_eq_add_of_le' (Nat.zero_lt_of_lt hfuel)
      exact loop_succ_leave (by simp only [widthPass, hchar, if_neg hdigit]) fuel

theorem charAt_ne_of_textAt (h : TextAt mem stop p fmt) {c : Char} (hc : c ≠ '\x00')
    (hfmt : ∀ rest, fmt ≠ c :: rest) : charAt mem p ≠ c := by
  intro heq
  cases fmt with
  | nil => exact hc (heq.symm.trans h.2)
  | cons c' fmt => exact hfmt fmt (by rw [← heq, h.1])

/-- The pointer runs over what the list model takes off the list. -/
theorem directiveAt_of_textAt (h : TextAt mem stop p fmt) :
    ∃ q, TextAt mem stop q (readDirective fmt).2.2 ∧ ∀ fuel, fmt.length < fuel →
      directiveAt mem fuel p = some ((readDirective fmt).1, (readDirective fmt).2.1, q) := by
  unfold readDirective
  split
  next fmt =>
    obtain ⟨hchar, -, hrest⟩ := h
    obtain ⟨q, hq, hloop⟩ := widthLoop_of_textAt hrest 0
    refine ⟨q, hq, fun fuel hfuel => ?_⟩
    rw [List.length_cons] at hfuel
    simp only [directiveAt, if_pos hchar, hloop fuel (by omega), Option.map_some]
  next hzero =>
    have hchar : charAt mem p ≠ '0' := charAt_ne_of_textAt h (by decide) (fun rest => hzero rest)
    obtain ⟨q, hq, hloop⟩ := widthLoop_of_textAt h 0
    refine ⟨q, hq, fun fuel hfuel => ?_⟩
    simp only [directiveAt, if_neg hchar, hloop fuel hfuel, Option.map_some]

/-- A pass at a `%`, with the letter that the pointer has come to. -/
theorem vprintfPassAt_percent (h : TextAt mem stop p ('%' :: fmt)) (args : List Arg)
    (out : List Char) :
    ∃ q, TextAt mem stop q (readDirective fmt).2.2 ∧ ∀ fuel, fmt.length < fuel →
      vprintfPassAt mem fuel ⟨p, args, out⟩ = some
        (match conversion (charAt mem q) (readDirective fmt).1 (readDirective fmt).2.1 args with
          | none => .leave none
          | some (text, args) => .again ⟨q + 1, args, out ++ text⟩) := by
  obtain ⟨hchar, -, hrest⟩ := h
  obtain ⟨q, hq, hdir⟩ := directiveAt_of_textAt hrest
  refine ⟨q, hq, fun fuel hfuel => ?_⟩
  have hnul : charAt mem p ≠ '\x00' := by rw [hchar]; decide
  simp only [vprintfPassAt, if_neg hnul, if_neg (not_not.mpr hchar), hdir fuel hfuel,
    Option.map_some]

/-! ## Passes -/

variable {s s' : PrintState}

/-- A pass of the list model that comes back to the head is one on memory. -/
theorem vprintfPassAt_again (h : TextAt mem stop p s.fmt) (hpass : vprintfPass s = .again s') :
    ∃ q, TextAt mem stop q s'.fmt ∧ ∀ fuel, s.fmt.length ≤ fuel →
      vprintfPassAt mem fuel ⟨p, s.args, s.out⟩ = some (.again ⟨q, s'.args, s'.out⟩) := by
  cases vprintfPass_cases hpass with
  | char fmt args out hc =>
    obtain ⟨hchar, hnul, hrest⟩ := h
    refine ⟨p + 1, hrest, fun fuel _ => ?_⟩
    simp only [vprintfPassAt, hchar, if_neg hnul, if_pos hc]
  | @convert fmt rest lead c maxwidth args args' text out hfmt hconv =>
    obtain ⟨q, hq, hpassAt⟩ := vprintfPassAt_percent h args out
    rw [hfmt] at hq hpassAt
    obtain ⟨hchar, -, hrest⟩ := hq
    refine ⟨q + 1, hrest, fun fuel hfuel => ?_⟩
    rw [hpassAt fuel hfuel]
    simp only [hchar, hconv]

theorem vprintfPassAt_done (h : TextAt mem stop p s.fmt) {r : List Char}
    (hpass : vprintfPass s = .leave (some r)) (fuel : ℕ) :
    vprintfPassAt mem fuel ⟨p, s.args, s.out⟩ = some (.leave (some r)) := by
  cases vprintfPass_cases hpass with
  | done args out => simp only [vprintfPassAt, h.2, if_true]

/-- The NUL as the letter of a conversion is printed like any other character. -/
theorem conversion_nul (lead : Char) (maxwidth : Int32) (args : List Arg) :
    conversion '\x00' lead maxwidth args = some (['\x00'], args) := rfl

/-- A pass at a conversion without its letter goes on behind the NUL. -/
theorem vprintfPassAt_cut (h : TextAt mem stop p ('%' :: fmt))
    (hfmt : (readDirective fmt).2.2 = []) (args : List Arg) (out : List Char) {fuel : ℕ}
    (hfuel : fmt.length < fuel) :
    vprintfPassAt mem fuel ⟨p, args, out⟩ =
      some (.again ⟨stop + 1, args, out ++ ['\x00']⟩) := by
  obtain ⟨q, hq, hpass⟩ := vprintfPassAt_percent h args out
  rw [hfmt] at hq
  obtain ⟨rfl, hnul⟩ := hq
  rw [hpass fuel hfuel]
  simp only [hnul, conversion_nul]

theorem vprintfPassAt_misfit (h : TextAt mem stop p ('%' :: fmt)) {lead c : Char}
    {maxwidth : Int32} {rest : List Char} {args : List Arg}
    (hfmt : readDirective fmt = (lead, maxwidth, c :: rest))
    (hconv : conversion c lead maxwidth args = none) (out : List Char) {fuel : ℕ}
    (hfuel : fmt.length < fuel) :
    vprintfPassAt mem fuel ⟨p, args, out⟩ = some (.leave none) := by
  obtain ⟨q, hq, hpass⟩ := vprintfPassAt_percent h args out
  rw [hfmt] at hq hpass
  rw [hpass fuel hfuel]
  simp only [hq.1, hconv]

/-! ## Runs -/

/-- Where the list model prints a text, so does the loop on memory. -/
theorem printsAt_of_loop {n : ℕ} {r : List Char} (hrun : loop vprintfPass n s = some (some r))
    (h : TextAt mem stop p s.fmt) {fuel : ℕ} (hfuel : s.fmt.length < fuel) :
    vprintfFrom mem ⟨p, s.args, s.out⟩ fuel = some (some r) := by
  unfold vprintfFrom
  -- the list model takes one pass less each time, and so does the loop on memory
  induction n generalizing s p fuel with
  | zero => cases hrun
  | succ n ih =>
    obtain ⟨fuel, rfl⟩ := Nat.exists_eq_add_of_le' (Nat.zero_lt_of_lt hfuel)
    cases hpass : vprintfPass s with
    | again s' =>
      rw [loop_succ_again hpass] at hrun
      have hlt := length_of_again hpass
      obtain ⟨q, hq, hpassAt⟩ := vprintfPassAt_again h hpass
      rw [loopM_succ_again (hpassAt fuel (by omega))]
      exact ih hrun hq (by omega)
    | leave r' =>
      rw [loop_succ_leave hpass, Option.some_inj] at hrun
      subst hrun
      exact loopM_succ_leave (vprintfPassAt_done h hpass fuel)

theorem yields_of_again (h : TextAt mem stop p s.fmt) (hpass : vprintfPass s = .again s') :
    ∃ q, TextAt mem stop q s'.fmt ∧ ∀ r, Yields (vprintfFrom mem ⟨q, s'.args, s'.out⟩) r →
      Yields (vprintfFrom mem ⟨p, s.args, s.out⟩) r := by
  obtain ⟨q, hq, hpassAt⟩ := vprintfPassAt_again h hpass
  exact ⟨q, hq, fun r hr => Yields.loopM_again ⟨_, hpassAt⟩ hr⟩

end Memory

/-- Where it does not, an argument does not fit, or the loop goes on behind the NUL. -/
theorem steps_over {n : ℕ} {s : PrintState} (hrun : loop vprintfPass n s = some none) :
    (∀ mem stop p, TextAt mem stop p s.fmt → Yields (vprintfFrom mem ⟨p, s.args, s.out⟩) none) ∨
      ∃ args out, ∀ mem stop p, TextAt mem stop p s.fmt → ∀ r,
        Yields (vprintfFrom mem ⟨stop + 1, args, out⟩) r →
          Yields (vprintfFrom mem ⟨p, s.args, s.out⟩) r := by
  induction n generalizing s with
  | zero => cases hrun
  | succ n ih =>
    cases hpass : vprintfPass s with
    | again s' =>
      rw [loop_succ_again hpass] at hrun
      rcases ih hrun with hnone | ⟨args, out, hover⟩
      · refine .inl fun mem stop p h => ?_
        obtain ⟨q, hq, hnext⟩ := yields_of_again h hpass
        exact hnext none (hnone mem stop q hq)
      · refine .inr ⟨args, out, fun mem stop p h r hr => ?_⟩
        obtain ⟨q, hq, hnext⟩ := yields_of_again h hpass
        exact hnext r (hover mem stop q hq r hr)
    | leave r' =>
      rw [loop_succ_leave hpass, Option.some_inj] at hrun
      subst hrun
      cases vprintfPass_cases hpass with
      | @cut fmt args out hfmt =>
        refine .inr ⟨args, out ++ ['\x00'], fun mem stop p h r hr => ?_⟩
        exact Yields.loopM_again
          ⟨fmt.length + 1, fun fuel hfuel => vprintfPassAt_cut h hfmt args out hfuel⟩ hr
      | @misfit fmt rest lead c maxwidth args out hfmt hconv =>
        refine .inl fun mem stop p h => ?_
        exact Yields.loopM_leave
          ⟨fmt.length + 1, fun fuel hfuel => vprintfPassAt_misfit h hfmt hconv out hfuel⟩

/-! ## Formats that are complete -/

/-- No conversion is cut off by the end of the format. -/
inductive Complete : List Char → Prop
  | nil : Complete []
  | char {c : Char} {fmt : List Char} (hc : c ≠ '%') (h : Complete fmt) : Complete (c :: fmt)
  | conversion {fmt rest : List Char} {lead c : Char} {maxwidth : Int32}
      (hfmt : readDirective fmt = (lead, maxwidth, c :: rest)) (h : Complete rest) :
      Complete ('%' :: fmt)

/-- A conversion with this letter and `maxwidth` finds an argument of its type and leaves the
    rest. A number fits into the array of `out_num` if there is room for the padded digits, the
    sign and the `'\0'`; the digits alone always fit. -/
inductive Takes : Char → Int32 → List Arg → List Arg → Prop
  | number {c : Char} {base : ℕ} {maxwidth : Int32} {v : Word} (args : List Arg)
      (hc : IsNumber c base)
      (hwidth : maxwidth.toInt + (if v.toInt < 0 then 1 else 0) < maxNumberBytes) :
      Takes c maxwidth (.num v :: args) args
  | char (maxwidth : Int32) (v : Word) (args : List Arg) : Takes 'c' maxwidth (.num v :: args) args
  | str (maxwidth : Int32) (s : List Char) (args : List Arg) :
      Takes 's' maxwidth (.str s :: args) args
  | other {c : Char} (maxwidth : Int32) (args : List Arg)
      (hc : c ∉ ['d', 'o', 'u', 'x', 'c', 's']) : Takes c maxwidth args args

/-- Each conversion that is not cut off finds an argument that fits. -/
inductive ArgsFit : List Char → List Arg → Prop
  | nil (args : List Arg) : ArgsFit [] args
  | char {c : Char} {fmt : List Char} {args : List Arg} (hc : c ≠ '%') (h : ArgsFit fmt args) :
      ArgsFit (c :: fmt) args
  | cut {fmt : List Char} (args : List Arg) (hfmt : (readDirective fmt).2.2 = []) :
      ArgsFit ('%' :: fmt) args
  | conversion {fmt rest : List Char} {lead c : Char} {maxwidth : Int32} {args args' : List Arg}
      (hfmt : readDirective fmt = (lead, maxwidth, c :: rest))
      (htakes : Takes c maxwidth args args') (h : ArgsFit rest args') : ArgsFit ('%' :: fmt) args

section Takes

variable {c lead : Char} {base : ℕ} {maxwidth : Int32} {args args' : List Arg}

theorem conversion_number (hc : IsNumber c base) :
    conversion c lead maxwidth args =
      withNum args fun v => outNum (.ofBitVec v) base lead maxwidth := by
  cases hc <;> rfl

theorem isNumber_bounds (hc : IsNumber c base) : 8 ≤ base ∧ base ≤ 16 := by
  cases hc <;> decide

theorem conversion_other (hc : c ∉ ['d', 'o', 'u', 'x', 'c', 's']) :
    conversion c lead maxwidth args = some ([c], args) := by
  simp only [List.mem_cons, List.not_mem_nil, or_false, not_or] at hc
  obtain ⟨hd, ho, hu, hx, hc, hs⟩ := hc
  simp only [conversion, hd, ho, hu, hx, hc, hs, if_false]

theorem Takes.exists_conversion (lead : Char) (h : Takes c maxwidth args args') :
    ∃ text, conversion c lead maxwidth args = some (text, args') := by
  cases h with
  | number args hc hwidth =>
    obtain ⟨hbase, hbase'⟩ := isNumber_bounds hc
    rw [conversion_number hc, withNum,
      outNum_eq _ hbase hbase' lead (by rwa [Int32.toInt_ofBitVec])]
    exact ⟨_, rfl⟩
  | char maxwidth v args => exact ⟨_, rfl⟩
  | str maxwidth s args => exact ⟨_, rfl⟩
  | other maxwidth args hc => exact ⟨_, conversion_other hc⟩

theorem takes_of_number {text : List Char} (hc : IsNumber c base)
    (h : conversion c lead maxwidth args = some (text, args')) : Takes c maxwidth args args' := by
  obtain ⟨hbase, hbase'⟩ := isNumber_bounds hc
  rw [conversion_number hc] at h
  rcases args with _ | ⟨v | s, args⟩
  · cases h
  · by_cases hwidth : maxwidth.toInt + (if v.toInt < 0 then 1 else 0) < maxNumberBytes
    · rw [withNum, outNum_eq _ hbase hbase' lead (by rwa [Int32.toInt_ofBitVec])] at h
      cases h
      exact .number _ hc hwidth
    · rw [withNum, outNum_eq_none _ hbase hbase' lead (by rwa [Int32.toInt_ofBitVec])] at h
      cases h
  · cases h

theorem takes_of_conversion {text : List Char}
    (h : conversion c lead maxwidth args = some (text, args')) : Takes c maxwidth args args' := by
  by_cases hc : c ∈ ['d', 'o', 'u', 'x', 'c', 's']
  · simp only [List.mem_cons, List.not_mem_nil, or_false] at hc
    rcases hc with rfl | rfl | rfl | rfl | rfl | rfl
    · exact takes_of_number .d h
    · exact takes_of_number .o h
    · exact takes_of_number .u h
    · exact takes_of_number .x h
    · rcases args with _ | ⟨v | s, args⟩ <;> cases h
      exact .char maxwidth v _
    · rcases args with _ | ⟨v | s, args⟩ <;> cases h
      exact .str maxwidth _ _
  · rw [conversion_other hc] at h
    cases h
    exact .other maxwidth args hc

end Takes

theorem complete_of_loop {n : ℕ} {s : PrintState} {r : List Char}
    (hrun : loop vprintfPass n s = some (some r)) : Complete s.fmt ∧ ArgsFit s.fmt s.args := by
  induction n generalizing s with
  | zero => cases hrun
  | succ n ih =>
    cases hpass : vprintfPass s with
    | again s' =>
      rw [loop_succ_again hpass] at hrun
      obtain ⟨hcomplete, hfit⟩ := ih hrun
      cases vprintfPass_cases hpass with
      | char fmt args out hc => exact ⟨.char hc hcomplete, .char hc hfit⟩
      | convert out hfmt hconv =>
        exact ⟨.conversion hfmt hcomplete, .conversion hfmt (takes_of_conversion hconv) hfit⟩
    | leave r' =>
      rw [loop_succ_leave hpass, Option.some_inj] at hrun
      subst hrun
      cases vprintfPass_cases hpass with
      | done args out => exact ⟨.nil, .nil args⟩

theorem returns_of_complete {fmt : List Char} {args : List Arg} (hfit : ArgsFit fmt args)
    (hcomplete : Complete fmt) (out : List Char) :
    ∃ r, Returns vprintfPass ⟨fmt, args, out⟩ (some r) := by
  induction hfit generalizing out with
  | nil args => exact ⟨out, .of_leave rfl⟩
  | @char c fmt args hc _ ih =>
    cases hcomplete with
    | char _ hcomplete =>
      obtain ⟨r, hr⟩ := ih hcomplete (out ++ [c])
      exact ⟨r, .of_again (if_pos hc) hr⟩
    | conversion hfmt _ => exact absurd rfl hc
  | cut args hfmt =>
    cases hcomplete with
    | char hc _ => exact absurd rfl hc
    | conversion hfmt' _ => rw [hfmt'] at hfmt; cases hfmt
  | @conversion fmt rest lead c maxwidth args args' hfmt htakes _ ih =>
    cases hcomplete with
    | char hc _ => exact absurd rfl hc
    | conversion hfmt' hcomplete =>
      rw [hfmt] at hfmt'
      cases hfmt'
      obtain ⟨text, hconv⟩ := htakes.exists_conversion lead
      obtain ⟨r, hr⟩ := ih hcomplete (out ++ text)
      refine ⟨r, .of_again ?_ hr⟩
      simp only [vprintfPass, ne_eq, not_true_eq_false, if_false, hfmt, hconv]

/-- Where the list model prints a text. -/
theorem exists_prints_iff (fmt : List Char) (args : List Arg) :
    (∃ text, Prints fmt args text) ↔ Complete fmt ∧ ArgsFit fmt args := by
  constructor
  · rintro ⟨text, n, hn⟩
    exact complete_of_loop (hn n le_rfl)
  · rintro ⟨hcomplete, hfit⟩
    exact returns_of_complete hfit hcomplete []

/-! ## Two memories -/

/-- The format is at `p` in memory, up to and including its NUL. -/
def FormatAt (mem : Mem) (p : ℕ) (fmt : CString) : Prop :=
  ∀ i ≤ fmt.bytes.length, mem (p + i) = fmt.get i

/-- The characters of a format. -/
def formatText (fmt : CString) : List Char := fmt.bytes.map toChar

/-- `my_vprintf` returns after at most `rounds` passes and has printed `text`. -/
def PrintsWithin (rounds : ℕ) (mem : Mem) (p : ℕ) (args : List Arg) (text : List Char) : Prop :=
  ∀ fuel, rounds < fuel → myVprintfAt mem p args fuel = some (some text)

/-- In memories that both hold the format, the same text is printed, in at most as many passes
    as the format has characters. -/
def PrintsAlone (fmt : CString) (args : List Arg) : Prop :=
  ∀ mem mem' p, FormatAt mem p fmt → FormatAt mem' p fmt →
    ∃ text, PrintsWithin fmt.bytes.length mem p args text ∧
      PrintsWithin fmt.bytes.length mem' p args text

theorem toChar_eq_nul_iff : ∀ b : Byte, toChar b = '\x00' ↔ b = 0 := by decide +kernel

theorem textAt_of_bytes {mem : Mem} {p : ℕ} {l : List Byte} (hnul : ∀ b ∈ l, b ≠ 0)
    (h : ∀ i ≤ l.length, mem (p + i) = l.getD i 0) :
    TextAt mem (p + l.length) p (l.map toChar) := by
  induction l generalizing p with
  | nil => exact ⟨rfl, (toChar_eq_nul_iff _).mpr (h 0 le_rfl)⟩
  | cons b l ih =>
    refine ⟨congrArg toChar (h 0 (Nat.zero_le _)), ?_, ?_⟩
    · exact (toChar_eq_nul_iff b).not.mpr (hnul b List.mem_cons_self)
    · have hrest := ih (p := p + 1) (fun b' hb' => hnul b' (List.mem_cons_of_mem b hb'))
        (fun i hi => by
          rw [Nat.add_assoc, Nat.add_comm 1]
          exact h (i + 1) (Nat.succ_le_succ hi))
      rwa [Nat.add_assoc, Nat.add_comm 1] at hrest

theorem FormatAt.textAt {mem : Mem} {p : ℕ} {fmt : CString} (h : FormatAt mem p fmt) :
    TextAt mem (p + fmt.bytes.length) p (formatText fmt) :=
  textAt_of_bytes fmt.noNul h

/-- A memory with the format at 0, and other bytes behind its NUL. -/
def withBehind (fmt : CString) (behind : List Byte) : Mem :=
  fun a => (fmt.bytes ++ 0 :: behind).getD a 0

theorem formatAt_withBehind (fmt : CString) (behind : List Byte) :
    FormatAt (withBehind fmt behind) 0 fmt := by
  intro i hi
  rw [Nat.zero_add, withBehind, CString.get]
  rcases Nat.lt_or_eq_of_le hi with hlt | rfl
  · rw [List.getD_append _ _ _ _ hlt]
  · rw [List.getD_append_right _ _ _ _ le_rfl, Nat.sub_self, List.getD_eq_default _ _ le_rfl]
    rfl

theorem charAt_withBehind (fmt : CString) (behind : List Byte) (i : ℕ) :
    charAt (withBehind fmt behind) (fmt.bytes.length + 1 + i) = toChar (behind.getD i 0) := by
  rw [charAt, withBehind, List.getD_append_right _ _ _ _ (by omega),
    show fmt.bytes.length + 1 + i - fmt.bytes.length = i + 1 by omega]
  rfl

/-- Behind the NUL an `x` is printed if there is one. -/
theorem yields_behind (fmt : CString) (args : List Arg) (out : List Char) :
    Yields (vprintfFrom (withBehind fmt []) ⟨fmt.bytes.length + 1, args, out⟩) (some out) ∧
      Yields (vprintfFrom (withBehind fmt [0x78]) ⟨fmt.bytes.length + 1, args, out⟩)
        (some (out ++ ['x'])) := by
  have hnone := charAt_withBehind fmt [] 0
  have hx := charAt_withBehind fmt [0x78] 0
  have hend := charAt_withBehind fmt [0x78] 1
  rw [Nat.add_zero] at hnone hx
  constructor
  · refine Yields.loopM_leave ⟨0, fun fuel _ => ?_⟩
    simp only [vprintfPassAt, hnone]
    rfl
  · have hprint : ∀ fuel, vprintfPassAt (withBehind fmt [0x78]) fuel
        ⟨fmt.bytes.length + 1, args, out⟩ =
          some (.again ⟨fmt.bytes.length + 1 + 1, args, out ++ ['x']⟩) := by
      intro fuel
      simp only [vprintfPassAt, hx]
      rfl
    refine Yields.loopM_again ⟨0, fun fuel _ => hprint fuel⟩ ?_
    refine Yields.loopM_leave ⟨0, fun fuel _ => ?_⟩
    simp only [vprintfPassAt, hend]
    rfl

theorem PrintsWithin.yields {n : ℕ} {mem : Mem} {p : ℕ} {args : List Arg} {text : List Char}
    (h : PrintsWithin n mem p args text) :
    Yields (vprintfFrom mem ⟨p, args, []⟩) (some text) :=
  ⟨n + 1, h⟩

theorem printsAlone_of_prints {fmt : CString} {args : List Arg} {text : List Char}
    (h : Prints (formatText fmt) args text) : PrintsAlone fmt args := by
  obtain ⟨n, hn⟩ := h
  have hwithin : ∀ mem p, FormatAt mem p fmt → PrintsWithin fmt.bytes.length mem p args text := by
    intro mem p hfmt fuel hfuel
    refine printsAt_of_loop (hn n le_rfl) hfmt.textAt ?_
    rwa [formatText, List.length_map]
  intro mem mem' p hfmt hfmt'
  exact ⟨text, hwithin mem p hfmt, hwithin mem' p hfmt'⟩

theorem exists_prints_of_printsAlone {fmt : CString} {args : List Arg} (h : PrintsAlone fmt args) :
    ∃ text, Prints (formatText fmt) args text := by
  obtain ⟨n, _ | r, hrun⟩ := exists_loop_vprintfPass ⟨formatText fmt, args, []⟩
  · exfalso
    have hfmt := formatAt_withBehind fmt []
    have hfmt' := formatAt_withBehind fmt [0x78]
    obtain ⟨text, hprints, hprints'⟩ := h _ _ 0 hfmt hfmt'
    rcases steps_over hrun with hnone | ⟨args', out, hover⟩
    · cases (hnone _ _ 0 hfmt.textAt).unique hprints.yields
    · obtain ⟨hbehind, hbehind'⟩ := yields_behind fmt args' out
      rw [← Nat.zero_add fmt.bytes.length] at hbehind hbehind'
      have htext := (hover _ _ 0 hfmt.textAt _ hbehind).unique hprints.yields
      have htext' := (hover _ _ 0 hfmt'.textAt _ hbehind').unique hprints'.yields
      have hlength := congrArg List.length (Option.some.inj (htext.trans htext'.symm))
      rw [List.length_append, List.length_singleton] at hlength
      omega
  · exact ⟨r, Returns.of_loop hrun⟩

/-- What is printed depends only on the format up to its NUL exactly if the format is complete
    and the arguments fit. -/
theorem printsAlone_iff (fmt : CString) (args : List Arg) :
    PrintsAlone fmt args ↔ Complete (formatText fmt) ∧ ArgsFit (formatText fmt) args := by
  rw [← exists_prints_iff]
  constructor
  · exact exists_prints_of_printsAlone
  · rintro ⟨text, htext⟩
    exact printsAlone_of_prints htext

/-- `"%08d"`, as in `my_printf_test`. -/
def zeroPaddedFormat : CString := ⟨[0x25, 0x30, 0x38, 0x64], by decide⟩

/-- The `x` behind the format is not printed. -/
theorem printsAlone_zeroPadded :
    PrintsAlone zeroPaddedFormat [.num 12345] ∧
      myVprintfAt (withBehind zeroPaddedFormat [0x78]) 0 [.num 12345] 5 =
        some (some ['0', '0', '0', '1', '2', '3', '4', '5']) := by
  have hfmt : readDirective ['0', '8', 'd'] = ('0', .ofNat 8, ['d']) := rfl
  refine ⟨(printsAlone_iff _ _).mpr ⟨.conversion hfmt .nil, ?_⟩, rfl⟩
  exact .conversion hfmt (.number [] .d (by decide)) (.nil [])

/-- `"%"`. -/
def percent : CString := ⟨[0x25], by decide⟩

/-- The arguments of `"%"` fit, but a byte behind its NUL is printed. -/
theorem not_printsAlone_percent :
    ArgsFit (formatText percent) [] ∧
      myVprintfAt (withBehind percent []) 0 [] 3 = some (some ['\x00']) ∧
      myVprintfAt (withBehind percent [0x78]) 0 [] 4 = some (some ['\x00', 'x']) ∧
      ¬ PrintsAlone percent [] := by
  refine ⟨.cut [] rfl, by decide, by decide, ?_⟩
  intro halone
  obtain ⟨text, hprints⟩ := exists_prints_of_printsAlone halone
  obtain ⟨hcomplete, -⟩ := (exists_prints_iff _ _).mp ⟨text, hprints⟩
  cases hcomplete with
  | char hc _ => exact absurd rfl hc
  | conversion hfmt _ => cases hfmt

end Jz2440.Printf
