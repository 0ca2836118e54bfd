import RpalLexer.CommandLine.Run
import RpalLexer.Proofs.EnvironmentOptions
import RpalLexer.Proofs.Strictness

/-!
# Flags as they are given

A command line that asks for a listing sets the options of the lexer, and does so under every
environment whose encoding can be looked up. Flags that tighten a policy change nothing else,
wherever among the options they stand. Main statements: `Arguments.request_of_added`,
`Options.exists_ofFlags` and `Options.ofFlags_stricter`.
-/
namespace RpalLexer

structure Flags.Tighter (flags flags' : Flags) : Prop where
  strict : flags.strict = true → flags'.strict = true
  strictStrings : flags.strictStrings = true → flags'.strictStrings = true
  strictChars : flags.strictChars = true → flags'.strictChars = true
  readErrors : flags'.readErrors = flags.readErrors
  encoding : flags'.encoding = flags.encoding

namespace CommandLine

variable {a a' : Arguments} {gs gs' : List Given} {files : Files} {l : Listing} {s : Setting}
  {args : List String}

def Setting.Tightens : Setting → Prop
  | .strict => True
  | .strictStrings => True
  | .strictChars => True
  | _ => False

/-- The second list has flags more that only tighten a policy, in any places. -/
inductive AddsStrict : List Given → List Given → Prop
  | nil : AddsStrict [] []
  | keep (g : Given) {gs gs' : List Given} (h : AddsStrict gs gs') :
      AddsStrict (g :: gs) (g :: gs')
  | add {g : Given} {gs gs' : List Given} (hg : g.setting.Tightens) (h : AddsStrict gs gs') :
      AddsStrict gs (g :: gs')

theorem AddsStrict.refl (gs : List Given) : AddsStrict gs gs := by
  induction gs with
  | nil => exact .nil
  | cons g gs ih => exact .keep g ih

theorem AddsStrict.sublist (h : AddsStrict gs gs') : gs.Sublist gs' := by
  induction h with
  | nil => exact .slnil
  | keep g _ ih => exact ih.cons_cons g
  | add _ _ ih => exact ih.cons _

section Added

variable {p : Given → Bool} (hp : ∀ g : Given, g.setting.Tightens → p g = false)
include hp

theorem AddsStrict.filter_eq (h : AddsStrict gs gs') : gs'.filter p = gs.filter p := by
  induction h with
  | nil => rfl
  | keep g _ ih => rw [List.filter_cons, List.filter_cons, ih]
  | @add g _ _ hg _ ih => rw [List.filter_cons, hp g hg, if_neg Bool.false_ne_true, ih]

theorem AddsStrict.any_eq (h : AddsStrict gs gs') : gs'.any p = gs.any p := by
  have hf := h.filter_eq hp
  rw [Bool.eq_iff_iff, List.any_eq_true, List.any_eq_true]
  simp only [← List.mem_filter, hf]

theorem AddsStrict.find?_reverse_eq (h : AddsStrict gs gs') :
    gs'.reverse.find? p = gs.reverse.find? p := by
  rw [← List.head?_filter, List.filter_reverse, h.filter_eq hp, ← List.filter_reverse,
    List.head?_filter]

end Added

theorem AddsStrict.findSome?_eq {α : Type} (h : AddsStrict gs gs') {f : Given → Option α}
    (hf : ∀ g : Given, g.setting.Tightens → f g = none) : gs'.findSome? f = gs.findSome? f := by
  induction h with
  | nil => rfl
  | keep g _ ih => rw [List.findSome?_cons, List.findSome?_cons, ih]
  | @add g _ _ hg _ ih => rw [List.findSome?_cons, hf g hg, ih]

/-! ## Arguments -/

namespace Arguments

theorem tightens_ne {g : Given} (hs : ¬s.Tightens) (hg : g.setting.Tightens) :
    decide (g.setting = s) = false :=
  decide_eq_false fun he => hs (he ▸ hg)

section Added

variable (h : AddsStrict a.given a'.given)
include h

theorem has_eq_of_added (hs : ¬s.Tightens) : a'.has s = a.has s :=
  h.any_eq fun _ => tightens_ne hs

theorem has_of_added (hs : a.has s = true) : a'.has s = true := by
  obtain ⟨g, hg, he⟩ := List.any_eq_true.1 hs
  exact List.any_eq_true.2 ⟨g, h.sublist.subset hg, he⟩

theorem value?_eq_of_added (hs : ¬s.Tightens) : a'.value? s = a.value? s := by
  rw [value?, h.find?_reverse_eq fun _ => tightens_ne hs, value?]

omit h in
theorem valueError?_of_tightens (hs : s.Tightens) : a.valueError? s = none := by
  have hc : s.choices? = none := by
    cases s with
    | format | readErrors => exact absurd hs id
    | _ => rfl
  rw [valueError?, hc]

theorem valueError?_eq_of_added (s : Setting) : a'.valueError? s = a.valueError? s := by
  by_cases hs : s.Tightens
  · rw [valueError?_of_tightens hs, valueError?_of_tightens hs]
  · rw [valueError?, valueError?, value?_eq_of_added h hs]

theorem notice?_eq_of_added : a'.notice? = a.notice? := by
  apply h.findSome?_eq
  intro g hg
  cases hs : g.setting with
  | version | help =>
    rw [hs] at hg
    exact absurd hg id
  | _ => rfl

end Added

theorem notice?_ne_list : a.notice? ≠ some (.list l) := by
  intro h
  obtain ⟨g, -, hg⟩ := List.exists_of_findSome?_eq_some h
  split at hg
  · cases hg
  · cases hg
  · cases hg

theorem request_eq_list_iff : a.request files = .ok (.list l) ↔
    a.notice? = none ∧ (a.given.findSome? fun g => a.valueError? g.setting) = none ∧
      ∃ path, a.file files = .ok path ∧ l = a.listing path := by
  rw [request]
  cases hn : a.notice? with
  | some r =>
    refine iff_of_false (fun h => notice?_ne_list (hn.trans (congrArg some (Except.ok.inj h)))) ?_
    rintro ⟨he, -⟩
    cases he
  | none =>
    cases hv : a.given.findSome? fun g => a.valueError? g.setting with
    | some e => simp
    | none =>
      cases hf : a.file files with
      | error e => simp
      | ok path => simp [eq_comm]

theorem file_eq_of_operands (h : a'.operands = a.operands) : a'.file files = a.file files := by
  rw [file, h, file]

theorem request_of_added (h : AddsStrict a.given a'.given) (ho : a'.operands = a.operands)
    (hl : a.request files = .ok (.list l)) : ∃ flags', l.flags.Tighter flags' ∧
      a'.request files = .ok (.list { l with flags := flags' }) := by
  obtain ⟨hn, hv, path, hf, rfl⟩ := request_eq_list_iff.1 hl
  have hhas {s : Setting} (hs : ¬s.Tightens) : a'.has s = a.has s := has_eq_of_added h hs
  have hvalue {s : Setting} (hs : ¬s.Tightens) : a'.value? s = a.value? s :=
    value?_eq_of_added h hs
  have hchosen {s : Setting} (hs : ¬s.Tightens) : a'.chosen? s = a.chosen? s := by
    rw [chosen?, hvalue hs, chosen?]
  refine ⟨(a'.listing path).flags, ⟨has_of_added h, has_of_added h, has_of_added h,
    hchosen id, hvalue id⟩, request_eq_list_iff.2 ⟨?_, ?_, path, ?_, ?_⟩⟩
  · rw [notice?_eq_of_added h, hn]
  -- The flags that are added take no value, so there is none of theirs to refuse.
  · have hf : (fun g : Given => a'.valueError? g.setting) = fun g => a.valueError? g.setting := by
      funext g
      exact valueError?_eq_of_added h g.setting
    rw [hf, h.findSome?_eq fun g hg => valueError?_of_tightens hg, hv]
  · rw [file_eq_of_operands ho, hf]
  · simp only [listing]
    rw [hhas (s := .skipDeleted) id, hhas (s := .verbose) id, hchosen (s := .format) id]

theorem find_of_chosen {value : String} (h : a.chosen? .readErrors = some value) :
    ∃ policy, ReadPolicy.find value = .ok policy := by
  obtain ⟨given, -, hc⟩ := Option.bind_eq_some_iff.1 h
  obtain ⟨policy, -, rfl⟩ := List.mem_map.1 (List.mem_of_find?_eq_some hc)
  exact ⟨policy, ReadPolicy.find_eq_ok_iff.2 rfl⟩

end Arguments

theorem parse_eq_list_iff : Request.parse args files = .ok (.list l) ↔
    ∃ a, Arguments.parse none args = .ok a ∧ a.request files = .ok (.list l) := by
  rw [Request.parse]
  cases Arguments.parse none args with
  | error e => simp
  | ok a => simp

theorem Arguments.parse_cons_of_tightens (hs : s.Tightens) (h : parse none args = .ok a) :
    parse none (s.longName :: args) = .ok { a with given := ⟨s, ""⟩ :: a.given } := by
  have hdashes : (s.longName == "--") = false := by
    cases s <;> decide
  have hread : isOption s.longName.toList = true ∧
      readOption s.longName.toList = .ok ⟨[⟨s, ""⟩], none⟩ := by
    cases s with
    | strict | strictStrings | strictChars => decide +kernel
    | _ => exact absurd hs id
  rw [parse, hdashes, if_neg Bool.false_ne_true, if_pos hread.1, hread.2]
  simp only [h, List.singleton_append]

theorem find_of_parse {value : String} (h : Request.parse args files = .ok (.list l))
    (hv : l.flags.readErrors = some value) : ∃ policy, ReadPolicy.find value = .ok policy := by
  obtain ⟨a, -, ha⟩ := parse_eq_list_iff.1 h
  obtain ⟨-, -, path, -, rfl⟩ := Arguments.request_eq_list_iff.1 ha
  exact Arguments.find_of_chosen hv

end CommandLine

namespace Options

variable {flags flags' : Flags} {env : Environment} {o : Options}

theorem exists_ofFlags
    (hn : ∀ name, env.lookup encodingVariable = some name → '\x00' ∉ name.toList)
    (hr : ∀ value, flags.readErrors = some value → ∃ policy, ReadPolicy.find value = .ok policy) :
    ∃ o, ofFlags flags env = .ok o := by
  obtain ⟨base, hbase, -⟩ := setBy_of_encodingFrom Text.lowers_lowerChars hn
  rw [ofFlags, hbase]
  cases hv : flags.readErrors with
  | none => exact ⟨_, rfl⟩
  | some value =>
    obtain ⟨policy, hp⟩ := hr value hv
    simp only [hp]
    exact ⟨_, rfl⟩

theorem tighten_stricter (h : flags.Tighter flags') (base : Options) :
    (base.tighten flags).Stricter (base.tighten flags') := by
  refine ⟨?_, ?_, rfl, rfl⟩
  · simp only [tighten]
    by_cases hs : (flags.strict || flags.strictStrings) = true
    · have hs' : (flags'.strict || flags'.strictStrings) = true := by
        rw [Bool.or_eq_true] at hs ⊢
        exact hs.imp h.strict h.strictStrings
      rw [if_pos hs, if_pos hs']
      exact Or.inl rfl
    · rw [if_neg hs]
      split
      · cases base.strings with
        | discard => exact Or.inr ⟨rfl, rfl⟩
        | raise => exact Or.inl rfl
      · exact Or.inl rfl
  · simp only [tighten]
    by_cases hs : (flags.strict || flags.strictChars) = true
    · have hs' : (flags'.strict || flags'.strictChars) = true := by
        rw [Bool.or_eq_true] at hs ⊢
        exact hs.imp h.strict h.strictChars
      rw [if_pos hs, if_pos hs']
      exact Or.inl rfl
    · rw [if_neg hs]
      split
      · cases base.chars with
        | drop => exact Or.inr ⟨rfl, rfl⟩
        | raise => exact Or.inl rfl
      · exact Or.inl rfl

theorem ofFlags_stricter (h : flags.Tighter flags') (ho : ofFlags flags env = .ok o) :
    ∃ o', ofFlags flags' env = .ok o' ∧ o.Stricter o' := by
  rw [ofFlags] at ho
  rw [ofFlags, h.readErrors, h.encoding]
  cases hb : ofEnvironment env with
  | error f =>
    rw [hb] at ho
    cases ho
  | ok base =>
    have hs := tighten_stricter h base
    rw [hb] at ho
    cases hv : flags.readErrors with
    | none =>
      rw [hv] at ho
      cases ho
      exact ⟨_, rfl, hs.strings, hs.chars, rfl, rfl⟩
    | some value =>
      rw [hv] at ho
      cases hp : ReadPolicy.find value with
      | error f =>
        simp only [hp] at ho
        cases ho
      | ok policy =>
        simp only [hp] at ho ⊢
        cases ho
        exact ⟨_, rfl, hs.strings, hs.chars, rfl, rfl⟩

end Options
end RpalLexer
