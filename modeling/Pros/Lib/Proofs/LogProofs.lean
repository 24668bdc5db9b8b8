import Pros.Lib.Format
import Pros.Lib.Proofs.NumberProofs

/-!
# What `printf` prints

Every round of the loop in `printf` prints the text of some pieces of the format and leaves the pointer behind
them. The format is split at the pointer, so that the grammar and the loop see the same characters.
-/

namespace Pros

/-! ## Characters at a position -/

@[simp] theorem charAt_nil : charAt [] 0 = some 0 := rfl

@[simp] theorem charAt_cons (c : CChar) (str : CString) : charAt (c :: str) 0 = some c.val := rfl

@[simp] theorem charAt_append (pre rest : CString) (k : ℕ) :
    charAt (pre ++ rest) (pre.length + k) = charAt rest k := by
  induction pre with
  | nil => simp
  | cons c pre ih =>
    rw [List.length_cons, show pre.length + 1 + k = pre.length + k + 1 by omega]
    exact ih

@[simp] theorem charAt_append_zero (pre rest : CString) :
    charAt (pre ++ rest) pre.length = charAt rest 0 := charAt_append pre rest 0

/-- Characters that are all before the terminator. -/
theorem chars_eq (pre text rest : CString) :
    chars (pre ++ (text ++ rest)) pre.length text.length = some (text.map Subtype.val) := by
  induction text generalizing pre with
  | nil => rfl
  | cons c text ih =>
    have hnext := ih (pre ++ [c])
    rw [List.append_assoc, List.singleton_append, List.length_append, List.length_singleton] at hnext
    rw [List.length_cons, chars, charAt_append_zero, List.cons_append, charAt_cons, hnext]
    rfl

/-- The string that is all text, up to its terminator. -/
theorem chars_all (text : CString) : chars text 0 (strlen text) = some (text.map Subtype.val) := by
  have h := chars_eq [] text []
  rwa [List.append_nil] at h

/-! ## Literal text -/

/-- Text that starts where literal text ends. -/
def EndsLiteral (rest : CString) : Prop := ∀ c ∈ rest.head?, c = percentSign

theorem val_ne_percent {c : CChar} : c.val ≠ 0x25 ↔ c ≠ percentSign := by
  rw [← Subtype.val_inj.ne]
  rfl

/-- The format behind `pre`, split where its literal text ends. -/
theorem exists_literal (rest : CString) :
    ∃ text tail, rest = text ++ tail ∧ (∀ c ∈ text, c ≠ percentSign) ∧ EndsLiteral tail := by
  induction rest with
  | nil => exact ⟨[], [], rfl, by simp, by simp [EndsLiteral]⟩
  | cons c rest ih =>
    by_cases hc : c = percentSign
    · exact ⟨[], c :: rest, rfl, by simp, by simp [EndsLiteral, hc]⟩
    · obtain ⟨text, tail, rfl, htext, htail⟩ := ih
      exact ⟨c :: text, tail, rfl, List.forall_mem_cons.mpr ⟨hc, htext⟩, htail⟩

/-- The loop goes on to the end of the literal text. -/
theorem literalLoop_eq (pre : CString) (pos amount fuel : ℕ) {text tail : CString}
    (htext : ∀ c ∈ text, c ≠ percentSign) (htail : EndsLiteral tail)
    (hpos : pos + amount = pre.length) (hf : text.length < fuel) :
    literalLoop (pre ++ (text ++ tail)) pos fuel amount = some (amount + text.length) := by
  induction text generalizing pre amount fuel with
  | nil =>
    obtain ⟨fuel, rfl⟩ : ∃ f, fuel = f + 1 := ⟨fuel - 1, by simp at hf; omega⟩
    rw [literalLoop, hpos, charAt_append_zero]
    cases tail with
    | nil => simp
    | cons c tail =>
      have hc : c = percentSign := htail c rfl
      simp [hc, percentSign]
  | cons c text ih =>
    obtain ⟨fuel, rfl⟩ : ∃ f, fuel = f + 1 := ⟨fuel - 1, by simp at hf; omega⟩
    have hnext := ih (pre ++ [c]) (amount + 1) fuel
      (fun d hd => htext d (List.mem_cons_of_mem _ hd)) (by simp; omega) (by simp at hf; omega)
    rw [List.append_assoc, List.singleton_append] at hnext
    rw [literalLoop, hpos, charAt_append_zero, List.cons_append, charAt_cons]
    simp only [Option.bind_eq_bind, Option.bind_some]
    rw [if_pos ⟨c.property, val_ne_percent.mpr (htext c List.mem_cons_self)⟩, hnext, List.length_cons]
    congr 1
    omega

/-- The text of a number is its numeral. -/
theorem numberChars_eq (stack : Memory ℕ) (n : U32) {base : U32} {fuel : ℕ} (hb : 2 ≤ base.toNat)
    (hb' : base.toNat ≤ 32) (hf : 32 ≤ fuel) :
    numberChars stack fuel n base = some (numeralText base.toNat n.toNat) := by
  obtain ⟨str, hitos, hbytes, -, -⟩ := itos_eq stack n 0 hb hb' hf
  have hlen := length_numeral_toNat_le n hb
  have hcount : (BitVec.ofNat 32 (numeral base.toNat n.toNat).length).toNat =
      (numeral base.toNat n.toNat).length := by
    rw [BitVec.toNat_ofNat, Nat.mod_eq_of_lt (by omega)]
  simp only [numberChars, countDigit_eq n hb hf, hitos, Option.bind_eq_bind, Option.bind_some, hcount, hbytes]
  rfl

/-! ## One round -/

variable {stack : Memory ℕ} {fuel : ℕ} {pre rest text tail : CString} {s : PrintState}

/-- A round over literal text. -/
theorem printfRound_literal {c : CChar} (hpos : s.pos = pre.length) (hc : c ≠ percentSign)
    (htext : ∀ d ∈ text, d ≠ percentSign) (htail : EndsLiteral tail) (hf : text.length < fuel) :
    printfRound stack fuel (pre ++ (c :: text ++ tail)) s =
      some ((s.print ((c :: text).map Subtype.val)).move (pre.length + (text.length + 1))) := by
  have hloop := literalLoop_eq (pre ++ [c]) pre.length 1 fuel htext htail (by simp) hf
  rw [List.append_assoc, List.singleton_append] at hloop
  have hchars := chars_eq pre (c :: text) tail
  rw [List.length_cons] at hchars
  simp only [printfRound, hpos, charAt_append_zero, List.cons_append, charAt_cons, Option.bind_eq_bind,
    Option.bind_some, ne_eq, val_ne_percent.mpr hc, not_false_eq_true, if_true, hloop, if_false]
  rw [Nat.add_comm 1, ← List.cons_append, hchars]
  rfl

/-- A round over `"%%"` and the literal text behind it. -/
theorem printfRound_percent (hpos : s.pos = pre.length) (htext : ∀ d ∈ text, d ≠ percentSign)
    (htail : EndsLiteral tail) (hf : text.length < fuel) :
    printfRound stack fuel (pre ++ (percentSign :: percentSign :: text ++ tail)) s =
      some (((s.move (pre.length + 1)).print ((percentSign :: text).map Subtype.val)).move
        (pre.length + (text.length + 2))) := by
  have hloop := literalLoop_eq (pre ++ [percentSign, percentSign]) (pre.length + 1) 1 fuel htext htail
    (by simp) hf
  have hchars := chars_eq (pre ++ [percentSign]) (percentSign :: text) tail
  have hnext := charAt_append pre (percentSign :: percentSign :: (text ++ tail)) 1
  have hpercent : percentSign.val = 0x25 := rfl
  rw [List.append_assoc] at hloop hchars
  rw [List.length_append, List.length_singleton, List.length_cons] at hchars
  simp only [List.cons_append, List.nil_append] at hloop hchars
  simp only [printfRound, hpos, charAt_append_zero, List.cons_append, Option.bind_eq_bind, Option.bind_some,
    hpercent, ne_eq, not_true_eq_false, if_false, if_true, hnext, charAt, Option.map_some,
    beq_self_eq_true, PrintState.move, hloop]
  rw [Nat.add_comm 1, hchars]
  simp only [Option.bind_some, PrintState.print, show pre.length + 1 + (text.length + 1) =
    pre.length + (text.length + 2) by omega]
  rfl

/-- A round over a directive. -/
theorem printfRound_directive {c : CChar} {d : Directive} {a : VaArg} {args : List VaArg}
    (hpos : s.pos = pre.length) (hd : Directive.of c = some d) (hparams : s.parameters = a :: args)
    (ha : d.Takes a) (hf : 32 ≤ fuel) :
    printfRound stack fuel (pre ++ (percentSign :: c :: rest)) s =
      some { pos := pre.length + 2, parameters := args, out := s.out ++ d.text a,
             visited := (pre.length + 2) :: (pre.length + 1) :: s.visited } := by
  have hnext := charAt_append pre (percentSign :: c :: rest) 1
  have hpercent : percentSign.val = 0x25 := rfl
  have hc : (c.val == 0x25) = false := by
    unfold Directive.of at hd
    by_contra h
    rw [Bool.not_eq_false, beq_iff_eq] at h
    simp [h] at hd
  simp only [printfRound, hpos, charAt_append_zero, Option.bind_eq_bind, Option.bind_some,
    hpercent, ne_eq, not_true_eq_false, if_false, hnext, charAt, Option.map_some, hc, PrintState.move,
    Bool.false_eq_true]
  unfold Directive.of at hd
  split_ifs at hd ⊢ with h1 h2 h3 h4 <;> obtain rfl := Option.some.inj hd
  · cases a with
    | str t => exact ha.elim
    | int n => simp [PrintState.argInt, hparams, PrintState.print, Directive.text]
  · cases a with
    | int n => exact ha.elim
    | str t => simp [PrintState.argStr, hparams, PrintState.print, Directive.text, chars_all]
  · cases a with
    | str t => exact ha.elim
    | int n =>
      have hchars : numberChars stack fuel n 10 = some (numeralText 10 n.toNat) :=
        numberChars_eq stack n (by decide) (by decide) hf
      simp only [PrintState.argInt, hparams, Option.bind_some, hchars]
      rfl
  · cases a with
    | str t => exact ha.elim
    | int n =>
      have hchars : numberChars stack fuel n 16 = some (numeralText 16 n.toNat) :=
        numberChars_eq stack n (by decide) (by decide) hf
      simp only [PrintState.argInt, hparams, Option.bind_some, hchars]
      rfl

/-- Text behind a `'%'` that makes it neither `"%%"` nor a directive. -/
def NoDirective (rest : CString) : Prop := ∀ c ∈ rest.head?, c ≠ percentSign ∧ Directive.of c = none

/-- The round that ends the loop at an unknown directive. -/
theorem printfRound_verbatim (hpos : s.pos = pre.length) (hrest : NoDirective rest) :
    printfRound stack fuel (pre ++ (percentSign :: rest)) s =
      some { pos := pre.length + (rest.length + 1), parameters := s.parameters
             out := s.out ++ (percentSign :: rest).map Subtype.val
             visited := (pre.length + (rest.length + 1)) :: pre.length :: (pre.length + 1) :: s.visited } := by
  have hnext := charAt_append pre (percentSign :: rest) 1
  have hpercent : percentSign.val = 0x25 := rfl
  have hdrop : strlen ((pre ++ (percentSign :: rest)).drop pre.length) = rest.length + 1 := by
    simp [strlen]
  have hchars := chars_eq pre (percentSign :: rest) []
  rw [List.append_nil, List.length_cons] at hchars
  have hval : ∃ v, charAt rest 0 = some v ∧ v ≠ 0x25 ∧ v ≠ 0x63 ∧ v ≠ 0x73 ∧ v ≠ 0x64 ∧ v ≠ 0x78 := by
    cases rest with
    | nil => exact ⟨0, rfl, by decide, by decide, by decide, by decide, by decide⟩
    | cons c rest =>
      obtain ⟨hc, hnone⟩ := hrest c rfl
      unfold Directive.of at hnone
      split_ifs at hnone with h1 h2 h3 h4
      exact ⟨c.val, rfl, val_ne_percent.mpr hc, h1, h2, h3, h4⟩
  obtain ⟨v, hv, h0, h1, h2, h3, h4⟩ := hval
  simp only [printfRound, hpos, charAt_append_zero, Option.bind_eq_bind, Option.bind_some,
    hpercent, ne_eq, not_true_eq_false, if_false, hnext, charAt, hv, Option.map_some,
    beq_eq_false_iff_ne.mpr h0, Bool.false_eq_true, PrintState.move, h1, h2, h3, h4, hdrop, hchars,
    PrintState.print]
  rfl

/-! ## The grammar -/

theorem pieces_literal {text : CString} (tail : CString) (htext : ∀ c ∈ text, c ≠ percentSign) :
    pieces (text ++ tail) = text.map .literal ++ pieces tail := by
  induction text with
  | nil => rfl
  | cons c text ih =>
    have hc : c ≠ percentSign := htext c List.mem_cons_self
    have hnext := ih fun d hd => htext d (List.mem_cons_of_mem _ hd)
    rw [List.cons_append, List.map_cons, List.cons_append, ← hnext]
    cases text ++ tail with
    | nil => simp [pieces, hc]
    | cons d rest => simp [pieces, hc]

theorem pieces_percent (rest : CString) :
    pieces (percentSign :: percentSign :: rest) = .percent :: pieces rest := by
  simp [pieces]

theorem directive_of_percentSign : Directive.of percentSign = none := by
  simp [Directive.of, percentSign]

theorem pieces_directive {c : CChar} {d : Directive} (rest : CString) (hd : Directive.of c = some d) :
    pieces (percentSign :: c :: rest) = .directive d :: pieces rest := by
  have hc : c ≠ percentSign := by
    rintro rfl
    rw [directive_of_percentSign] at hd
    cases hd
  simp [pieces, hc, hd]

theorem pieces_verbatim (hrest : NoDirective rest) :
    pieces (percentSign :: rest) = [.verbatim (percentSign :: rest)] := by
  cases rest with
  | nil => simp [pieces]
  | cons c rest =>
    obtain ⟨hc, hnone⟩ := hrest c rfl
    simp [pieces, hc, hnone]

theorem directives_literal (text : CString) (ps : List Piece) :
    directives (text.map .literal ++ ps) = directives ps := by
  induction text with
  | nil => rfl
  | cons c text ih => exact ih

theorem output_literal (text : CString) (ps : List Piece) (args : List VaArg) :
    output (text.map .literal ++ ps) args = text.map Subtype.val ++ output ps args := by
  induction text with
  | nil => rfl
  | cons c text ih =>
    rw [List.map_cons, List.cons_append, output, ih, List.map_cons, List.cons_append]

/-- What the pointer can be at. -/
theorem format_cases (rest : CString) :
    rest = [] ∨
    (∃ c text tail, rest = c :: text ++ tail ∧ c ≠ percentSign ∧ (∀ d ∈ text, d ≠ percentSign) ∧
      EndsLiteral tail) ∨
    (∃ text tail, rest = percentSign :: percentSign :: text ++ tail ∧ (∀ d ∈ text, d ≠ percentSign) ∧
      EndsLiteral tail) ∨
    (∃ c d tail, rest = percentSign :: c :: tail ∧ Directive.of c = some d) ∨
    (∃ tail, rest = percentSign :: tail ∧ NoDirective tail) := by
  cases rest with
  | nil => exact Or.inl rfl
  | cons c rest =>
    by_cases hc : c = percentSign
    · subst hc
      cases rest with
      | nil => exact Or.inr (Or.inr (Or.inr (Or.inr ⟨[], rfl, by simp [NoDirective]⟩)))
      | cons c rest =>
        by_cases hc : c = percentSign
        · subst hc
          obtain ⟨text, tail, rfl, htext, htail⟩ := exists_literal rest
          exact Or.inr (Or.inr (Or.inl ⟨text, tail, rfl, htext, htail⟩))
        · cases hd : Directive.of c with
          | some d => exact Or.inr (Or.inr (Or.inr (Or.inl ⟨c, d, rest, rfl, hd⟩)))
          | none =>
            refine Or.inr (Or.inr (Or.inr (Or.inr ⟨c :: rest, rfl, fun d hdc => ?_⟩)))
            obtain rfl := Option.some.inj hdc
            exact ⟨hc, hd⟩
    · obtain ⟨text, tail, rfl, htext, htail⟩ := exists_literal rest
      exact Or.inr (Or.inl ⟨c, text, tail, rfl, hc, htext, htail⟩)

/-! ## The loop -/

theorem printfLoop_succ {format : CString} {c : CChar} {s' : PrintState} (left : ℕ)
    (hc : charAt format s.pos = some c.val) (hround : printfRound stack fuel format s = some s') :
    printfLoop stack fuel format (left + 1) s = printfLoop stack fuel format left s' := by
  rw [printfLoop, hc]
  simp only [Option.bind_eq_bind, Option.bind_some, ne_eq, c.property, not_false_eq_true, if_true, hround]

/-- A round of the loop goes over the characters `c :: mid` in front of what is left of the format, takes the
    arguments of their piece and prints its text. -/
theorem printfRound_step {args extra : List VaArg} (hpos : s.pos = pre.length) (hrest : rest ≠ [])
    (hargs : Supplies (pieces rest) args)
    (hparams : s.parameters = args ++ extra) (hvisited : ∀ p ∈ s.visited, p ≤ pre.length + rest.length)
    (hfuel : rest.length < fuel) (hf : 32 ≤ fuel) :
    ∃ c mid tail args' s', rest = c :: mid ++ tail ∧ printfRound stack fuel (pre ++ rest) s = some s' ∧
      s'.pos = pre.length + (mid.length + 1) ∧ Supplies (pieces tail) args' ∧ s'.parameters = args' ++ extra ∧
      s'.out ++ output (pieces tail) args' = s.out ++ output (pieces rest) args ∧
      ∀ p ∈ s'.visited, p ≤ pre.length + rest.length := by
  rcases format_cases rest with rfl | ⟨c, text, tail, rfl, hc, htext, htail⟩ |
    ⟨text, tail, rfl, htext, htail⟩ | ⟨c, d, tail, rfl, hd⟩ | ⟨tail, rfl, htail⟩
  · exact absurd rfl hrest
  · have hpieces : pieces (c :: text ++ tail) = (c :: text).map .literal ++ pieces tail :=
      pieces_literal tail (List.forall_mem_cons.mpr ⟨hc, htext⟩)
    rw [Supplies, hpieces, directives_literal] at hargs
    rw [List.length_append, List.length_cons] at hvisited hfuel
    refine ⟨c, text, tail, args, _, rfl, printfRound_literal hpos hc htext htail (by omega), rfl, hargs,
      hparams, ?_, ?_⟩
    · rw [hpieces, output_literal, ← List.append_assoc]
      rfl
    · rw [List.length_append, List.length_cons]
      exact List.forall_mem_cons.mpr ⟨by omega, hvisited⟩
  · have hpieces : pieces (percentSign :: percentSign :: text ++ tail) =
        .percent :: (text.map .literal ++ pieces tail) := by
      rw [List.cons_append, List.cons_append, pieces_percent, pieces_literal tail htext]
    have hdirectives : directives (pieces (percentSign :: percentSign :: text ++ tail)) =
        directives (pieces tail) := by
      rw [hpieces]
      exact directives_literal text (pieces tail)
    rw [Supplies, hdirectives] at hargs
    rw [List.length_append, List.length_cons, List.length_cons] at hvisited hfuel
    refine ⟨percentSign, percentSign :: text, tail, args, _, rfl,
      printfRound_percent hpos htext htail (by omega), rfl, hargs, hparams, ?_, ?_⟩
    · rw [hpieces, output, output_literal, ← List.cons_append, ← List.append_assoc]
      rfl
    · rw [List.length_append, List.length_cons, List.length_cons]
      exact List.forall_mem_cons.mpr ⟨by omega, List.forall_mem_cons.mpr ⟨by omega, hvisited⟩⟩
  · rw [Supplies, pieces_directive tail hd] at hargs
    cases args with
    | nil => cases hargs
    | cons a args =>
      obtain ⟨ha, hargs⟩ := List.forall₂_cons.mp hargs
      rw [List.length_cons, List.length_cons] at hvisited
      refine ⟨percentSign, [c], tail, args, _, rfl, printfRound_directive hpos hd hparams ha hf, rfl, hargs,
        rfl, ?_, ?_⟩
      · rw [pieces_directive tail hd, output, ← List.append_assoc]
      · rw [List.length_cons, List.length_cons]
        exact List.forall_mem_cons.mpr ⟨by omega, List.forall_mem_cons.mpr ⟨by omega, hvisited⟩⟩
  · rw [Supplies, pieces_verbatim htail] at hargs
    cases hargs
    rw [List.length_cons] at hvisited
    refine ⟨percentSign, tail, [], [], _, (List.append_nil _).symm, printfRound_verbatim hpos htail, rfl,
      List.Forall₂.nil, hparams, ?_, ?_⟩
    · rw [pieces_verbatim htail]
      simp [pieces, output]
    · rw [List.length_cons]
      exact List.forall_mem_cons.mpr ⟨by omega, List.forall_mem_cons.mpr ⟨by omega,
        List.forall_mem_cons.mpr ⟨by omega, hvisited⟩⟩⟩

/-- The loop prints the rest of the format, takes its arguments and stays inside the string. -/
theorem printfLoop_eq (stack : Memory ℕ) (pre rest : CString) (s : PrintState) {args extra : List VaArg}
    {left : ℕ} (hpos : s.pos = pre.length)
    (hargs : Supplies (pieces rest) args) (hparams : s.parameters = args ++ extra)
    (hvisited : ∀ p ∈ s.visited, p ≤ (pre ++ rest).length) (hleft : rest.length < left)
    (hfuel : rest.length < fuel) (hf : 32 ≤ fuel) :
    ∃ s', printfLoop stack fuel (pre ++ rest) left s = some s' ∧
      s'.out = s.out ++ output (pieces rest) args ∧ s'.parameters = extra ∧
      ∀ p ∈ s'.visited, p ≤ (pre ++ rest).length := by
  induction left generalizing pre rest s args with
  | zero => omega
  | succ left ih =>
    by_cases hrest : rest = []
    · -- the terminator
      subst hrest
      cases hargs
      refine ⟨s, ?_, by simp [pieces, output], hparams, hvisited⟩
      rw [printfLoop, hpos, charAt_append_zero]
      rfl
    · rw [List.length_append] at hvisited
      obtain ⟨c, mid, tail, args', s', rfl, hround, hpos', hargs', hparams', hout, hvisited'⟩ :=
        printfRound_step hpos hrest hargs hparams hvisited hfuel hf
      have hchar : charAt (pre ++ (c :: mid ++ tail)) s.pos = some c.val := by
        rw [hpos, charAt_append_zero, List.cons_append, charAt_cons]
      have hsplit : pre ++ (c :: mid ++ tail) = (pre ++ c :: mid) ++ tail := (List.append_assoc ..).symm
      rw [printfLoop_succ left hchar hround, ← hout, hsplit]
      rw [← List.length_append, hsplit] at hvisited'
      rw [List.length_append, List.length_cons] at hleft hfuel
      rw [← List.length_cons, ← List.length_append] at hpos'
      exact ih _ _ _ hpos' hargs' hparams' hvisited' (by omega) (by omega)

/-- `printf` follows the grammar of formats. -/
theorem printf_grammar (stack : Memory ℕ) (format : CString) (args extra : List VaArg)
    (hargs : Supplies (pieces format) args) (hf : format.length + 32 ≤ fuel) :
    ∃ s, printf stack fuel format (args ++ extra) = some s ∧ s.out = output (pieces format) args ∧
      s.parameters = extra ∧ ∀ p ∈ s.visited, p ≤ format.length :=
  printfLoop_eq stack [] format _ rfl hargs rfl (by simp) (by omega) (by omega) (by omega)

/-- `"%d%"`, with an argument too many. -/
theorem printf_grammar_percent :
    ∃ s, printf { byte := fun _ => 0 } 35 [percentSign, ⟨0x64, by decide⟩, percentSign] [.int 42, .int 7] =
        some s ∧
      s.out = output (pieces [percentSign, ⟨0x64, by decide⟩, percentSign]) [.int 42] ∧
      s.parameters = [.int 7] ∧ ∀ p ∈ s.visited, p ≤ 3 :=
  printf_grammar { byte := fun _ => 0 } [percentSign, ⟨0x64, by decide⟩, percentSign] [.int 42] [.int 7]
    (List.Forall₂.cons trivial List.Forall₂.nil) le_rfl

/-! ## The array for a number -/

/-- Every index of the array for `n` that `itos` stores to is below the length that `countDigit` gives the
    array. -/
def NumberFits (stack : Memory ℕ) (n base : U32) : Prop :=
  ∀ fuel numChars str, countDigit fuel n base = some numChars →
    itos fuel stack.clearLog n 0 base = some str → ∀ i ∈ str.written, i < numChars.toNat

/-- The terminator is stored behind the last digit, so there is no room for it. -/
theorem not_numberFits (stack : Memory ℕ) (n : U32) {base : U32} (hb : 2 ≤ base.toNat) (hb' : base.toNat ≤ 32) :
    ¬ NumberFits stack n base := by
  intro h
  obtain ⟨str, hitos, -, -, hw⟩ := itos_eq stack.clearLog n 0 hb hb' le_rfl
  have hlen := length_numeral_toNat_le n hb
  have hend := h 32 _ str (countDigit_eq n hb le_rfl) hitos (numeral base.toNat n.toNat).length
    ((hw _).mpr (Or.inr ⟨_, Nat.lt_succ_self _, by simp⟩))
  rw [BitVec.toNat_ofNat, Nat.mod_eq_of_lt (by omega)] at hend
  exact lt_irrefl _ hend

/-- No number fits the array that `printf` has for it. -/
theorem number_never_fits (stack : Memory ℕ) (n : U32) :
    ¬ NumberFits stack n 10 ∧ ¬ NumberFits stack n 16 :=
  ⟨not_numberFits stack n (by decide) (by decide), not_numberFits stack n (by decide) (by decide)⟩

theorem number_overruns : ¬ NumberFits { byte := fun _ => 0 } 916243 10 :=
  not_numberFits _ 916243 (by decide) (by decide)

/-! ## Signed numbers -/

/-- `"%d"`. -/
def decimalFormat : CString := [percentSign, ⟨0x64, by decide⟩]

/-- What `"%d"` prints is the numeral of its argument taken as an unsigned number. -/
theorem printf_decimalFormat (stack : Memory ℕ) (fuel : ℕ) (n : U32) (extra : List VaArg) :
    ∃ s, printf stack (fuel + 34) decimalFormat (.int n :: extra) = some s ∧
      s.out = numeralText 10 n.toNat := by
  have hargs : Supplies (pieces decimalFormat) [.int n] := List.Forall₂.cons trivial List.Forall₂.nil
  have hprintf : ∃ s, printf stack (fuel + 34) decimalFormat ([.int n] ++ extra) = some s ∧
      s.out = [] ++ output (pieces decimalFormat) [.int n] ∧ s.parameters = extra ∧
      ∀ p ∈ s.visited, p ≤ decimalFormat.length :=
    printfLoop_eq stack [] decimalFormat _ rfl hargs rfl (by simp) (by simp [decimalFormat])
      (by simp [decimalFormat]) (by omega)
  obtain ⟨s, hs, hout, -, -⟩ := hprintf
  refine ⟨s, hs, ?_⟩
  rw [hout]
  exact List.append_nil _

/-- The minus sign is never printed, so the text of a signed number is right if and only if the number is not
    negative. -/
theorem printf_decimal_iff (stack : Memory ℕ) (fuel : ℕ) (n : U32) (extra : List VaArg) :
    (∃ s, printf stack (fuel + 34) decimalFormat (.int n :: extra) = some s ∧ s.out = signedText n.toInt) ↔
      0 ≤ n.toInt := by
  obtain ⟨s, hs, hout⟩ := printf_decimalFormat stack fuel n extra
  rw [hs]
  constructor
  · rintro ⟨t, ht, htext⟩
    obtain rfl := Option.some.inj ht
    by_contra hneg
    rw [hout, signedText, if_pos (by omega)] at htext
    exact minusSign_notMem_numeralText (by omega) (by omega) (htext ▸ List.mem_cons_self)
  · intro hn
    refine ⟨s, rfl, ?_⟩
    have hnat : n.toInt.natAbs = n.toNat := by
      rw [BitVec.toInt_eq_toNat_cond] at hn ⊢
      split_ifs at hn ⊢ with h
      · exact Int.natAbs_natCast _
      · have := n.isLt
        omega
    rw [hout, signedText, if_neg (by omega), hnat]

/-- -1 is printed as 4294967295. -/
theorem printf_decimal_minusOne :
    (printf { byte := fun _ => 0 } 34 decimalFormat [.int (-1)]).map PrintState.out =
        some [0x34, 0x32, 0x39, 0x34, 0x39, 0x36, 0x37, 0x32, 0x39, 0x35] ∧
      signedText (-1 : U32).toInt = [0x2D, 0x31] := by
  decide

end Pros
