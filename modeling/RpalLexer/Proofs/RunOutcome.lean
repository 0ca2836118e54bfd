import RpalLexer.Proofs.FileFaults
import RpalLexer.Proofs.GivenFlags
import RpalLexer.Proofs.PrintedLines
import RpalLexer.Proofs.Transport

/-!
# Outcomes of runs

A run prints the tokens that a consumer of its file is given up to the end or the first fault, and
the exit code tells which of the two it was. Flags that tighten a policy can only cut a run short.
Main statement: `run_lists_file`.
-/
namespace RpalLexer

namespace Failure

def IsLookup : Failure → Prop
  | .plain .unknownName _ => True
  | .plain .missingKey _ => True
  | .plain .badIndex _ => True
  | _ => False

def IsAccess : Failure → Prop
  | .system ⟨.notFound, _⟩ => True
  | .system ⟨.noPermission, _⟩ => True
  | _ => False

end Failure

namespace Lexer

variable {s s' : Lexer} {e : Fault} {supply : Supply} {o o' : Options} {f : Failure}

def CutShort (answers answers' : List (Except Fault (Option Token))) : Prop :=
  ∃ front e, answers' = front ++ [.error (.scan e)] ∧ front <+: answers

theorem Tightened.pulls (h : s.Tightened s') :
    s'.pulls = s.pulls ∨ CutShort s.pulls s'.pulls := by
  fun_induction Lexer.pulls s generalizing s' with
  | case1 s hm e s₁ hn =>
    have hr : s'.nextToken.result = .error e := by
      rcases h.call.1 with ⟨g, hc, -⟩ | ⟨-, hr⟩
      · have hnone := hc.result_eq
        rw [hn] at hnone
        cases hnone
      · rw [hr, hn]
    exact Or.inl (pulls_of_error (h.hasMore_eq.trans hm) hr)
  | case2 s hm t s₁ hn ih =>
    have hm' : s'.hasMore = true := h.hasMore_eq.trans hm
    obtain ⟨ha, hs⟩ := h.call
    rcases ha with ⟨g, -, hr⟩ | ⟨-, hr⟩
    · exact Or.inr ⟨[], g, pulls_of_error hm' hr, List.nil_prefix⟩
    · rw [hn] at hr hs
      rw [pulls_of_ok hm' hr]
      rcases ih hs with he | ⟨front, g, he, hp⟩
      · exact Or.inl (by rw [he])
      · exact Or.inr ⟨.ok t :: front, g, by rw [he, List.cons_append],
          List.cons_prefix_cons.2 ⟨rfl, hp⟩⟩
  | case3 s hm =>
    exact Or.inl (pulls_of_not_hasMore (h.hasMore_eq.trans (by simpa using hm)))

theorem result_tokensAndClose_of_closable (h : s.reader.Lifetime supply) (hc : supply.Closable)
    (skip : Bool) : (s.tokensAndClose skip).result = (s.harvest skip none).toStep.result := by
  have hh : (s.harvest skip none).lexer.reader.Lifetime supply :=
    harvest_keeps (P := fun s => s.reader.Lifetime supply)
      (lifetime_invariant supply).nextToken skip none h
  have hclose : (s.harvest skip none).lexer.reader.close.result = .ok () := by
    rw [Reader.close]
    split
    · exact hh.closable hc
    · rfl
  have hl : (s.harvest skip none).lexer.close.result = .ok () := by
    simp only [close, Reader.shut, hclose]
    rfl
  rw [tokensAndClose, Step.thenAlways, Harvest.state_toStep, Step.eq_of_result hl]

end Lexer

namespace CommandLine

variable {files : Files} {path : String} {o o' : Options} {e : Fault} {f : Failure} {l : Listing}
  {env : Environment} {args : List String} {a : Arguments}

open Lexer (pulledTokens pulledFault CutShort)

/-- What a consumer of a file is given, call by call: the answers of the lexer that starts on the
file up to the end or the first fault, or the failure to start one. -/
def answers (files : Files) (path : String) (o : Options) : List (Except Fault (Option Token)) :=
  match (Lexer.ofFile files path o).result with
  | .error f => [.error (.failure f)]
  | .ok s => s.pulls

theorem answers_of_stricter (h : o.Stricter o') (files : Files) (path : String) :
    answers files path o' = answers files path o ∨
      CutShort (answers files path o) (answers files path o') := by
  rw [answers, answers, Lexer.ofFile, Lexer.ofFile, h.encoding]
  cases he : Encoding.find o.encoding with
  | error f => exact Or.inl rfl
  | ok enc =>
    cases hf : files.contents (shownPath path) with
    | error f =>
      simp only [hf]
      exact Or.inl trivial
    | ok bytes =>
      simp only [hf, Lexer.ofByteStream_eq he]
      -- Both lexers start on the same reader, for the policy for read errors is the same.
      have ht : (Lexer.ofSupply (.bytes o.encoding (.ofEncoding enc) (.ofItems bytes))
          (shownPath path) o).Tightened (Lexer.ofSupply
            (.bytes o.encoding (.ofEncoding enc) (.ofItems bytes)) (shownPath path) o') := by
        rw [Lexer.ofSupply, Lexer.ofSupply, h.readErrors]
        exact Lexer.tightened_start _ h
      exact ht.pulls

def ExitCode.after : Option Fault → ExitCode
  | none => .success
  | some e => .ofFault e

theorem run_of_answers (files : Files) (ho : Options.ofFlags l.flags env = .ok o) :
    (l.run env files).output =
        tokenLines l.asJson (kept l.skipDeleted (pulledTokens (answers files l.path o))) ∧
      (l.run env files).exit = .after (pulledFault (answers files l.path o)) := by
  simp only [Listing.run, ho, answers]
  rcases Lexer.ofFile_cases files l.path o with ⟨f, hf, -⟩ | ⟨enc, bytes, hs⟩
  · simp only [hf]
    exact ⟨rfl, rfl⟩
  · simp only [hs]
    generalize hstart : Lexer.ofSupply (.bytes o.encoding (.ofEncoding enc) (.ofItems bytes))
      (shownPath l.path) o = s
    have hlife : s.reader.Lifetime (.bytes o.encoding (.ofEncoding enc) (.ofItems bytes)) := by
      rw [← hstart]
      exact Lexer.lifetime_ofSupply _ _ _
    have hh := s.harvest_eq_pulls l.skipDeleted
    constructor
    · rw [listTokens, hh]
      split
      · rfl
      · rfl
    · rw [exit_listTokens, Lexer.result_tokensAndClose_of_closable hlife rfl, hh]
      cases pulledFault s.pulls with
      | none => rfl
      | some e => rfl

theorem find_error_ne (h : Encoding.find o.encoding = .error f) (message : String) :
    f ≠ .plain .badParameter message := by
  rintro rfl
  by_cases hn : '\x00' ∈ o.encoding.toList
  · cases h.symm.trans (Encoding.find_of_null hn)
  · rcases Encoding.find_cases hn with ⟨e, he⟩ | he
    · cases h.symm.trans he
    · cases h.symm.trans he

theorem contents_error_ne (h : files.contents path = .error f) (message : String) :
    f ≠ .plain .badParameter message := by
  rintro rfl
  rw [Files.contents] at h
  split at h
  · cases h
  · split at h
    · cases h
    · cases h
    · cases h

theorem fault_ne (h : pulledFault (answers files path o) = some e) (message : String) :
    e ≠ .failure (.plain .badParameter message) := by
  rw [answers] at h
  rcases Lexer.ofFile_cases files path o with ⟨f, hf, hopen⟩ | ⟨enc, bytes, hs⟩
  · simp only [hf] at h
    cases h
    intro he
    cases he
    rcases hopen with hopen | hopen
    · exact find_error_ne hopen message rfl
    · exact contents_error_ne hopen message rfl
  · simp only [hs] at h
    -- From here on there are scan errors and refused bytes only.
    have hread : (Supply.bytes o.encoding (.ofEncoding enc) (.ofItems bytes)).Readable :=
      Stream.readable_ofItems bytes
    have ht := Lexer.ofText_of_pulls hread rfl (Lexer.lifetime_ofSupply _ _ _) h
    rintro rfl
    cases ht with
    | badText hb =>
      obtain ⟨m, hm⟩ := hb
      cases hm

namespace ExitCode

theorem ofFailure_eq_invalidArguments (h : f.IsLookup ∨ f.IsAccess) :
    ofFailure f = .invalidArguments := by
  cases f with
  | system failure =>
    obtain ⟨reason, detail⟩ := failure
    cases reason with
    | notFound | noPermission => rfl
    | _ => exact absurd h (by simp [Failure.IsLookup, Failure.IsAccess])
  | undecodable failure => exact absurd h (by simp [Failure.IsLookup, Failure.IsAccess])
  | plain category message =>
    cases category with
    | unknownName | missingKey | badIndex => rfl
    | _ => exact absurd h (by simp [Failure.IsLookup, Failure.IsAccess])

theorem ofFailure_eq_internalError (h : ¬(f.IsLookup ∨ f.IsAccess))
    (hf : ∀ message, f ≠ .plain .badParameter message) : ofFailure f = .internalError := by
  rw [not_or] at h
  cases f with
  | system failure =>
    obtain ⟨reason, detail⟩ := failure
    cases reason with
    | notFound | noPermission => exact absurd trivial h.2
    | _ => rfl
  | undecodable failure => rfl
  | plain category message =>
    cases category with
    | unknownName | missingKey | badIndex => exact absurd trivial h.1
    | badParameter => exact absurd rfl (hf message)
    | _ => rfl

theorem code_after {fault : Option Fault}
    (hf : ∀ e, fault = some e → ∀ message, e ≠ .failure (.plain .badParameter message)) :
    ((after fault).code = 0 ↔ fault = none) ∧
    ((after fault).code = 1 ↔ ∃ g, fault = some (.scan g)) ∧
    ((after fault).code = 2 ↔ ∃ f, fault = some (.failure f) ∧ (f.IsLookup ∨ f.IsAccess)) ∧
    ((after fault).code = 3 ↔ ∃ f, fault = some (.failure f) ∧ ¬(f.IsLookup ∨ f.IsAccess)) := by
  cases fault with
  | none => simp [after, code]
  | some e =>
    cases e with
    | scan g => simp [after, ofFault, code]
    | failure f =>
      by_cases h : f.IsLookup ∨ f.IsAccess
      · have he : after (some (.failure f)) = .invalidArguments := ofFailure_eq_invalidArguments h
        simpa [he, code, or_iff_not_imp_left] using h
      · have he : after (some (.failure f)) = .internalError :=
          ofFailure_eq_internalError h fun message hm => hf _ rfl message (by rw [hm])
        simpa [he, code] using h

theorem code_eq_zero_iff {exit : ExitCode} : exit.code = 0 ↔ exit = .success := by
  cases exit <;> simp [code]

end ExitCode

theorem answers_of_unknownName {message : String}
    (h : Encoding.find o.encoding = .error (.plain .unknownName message)) :
    answers files path o = [.error (.failure (.plain .unknownName message))] := by
  rw [answers, Lexer.ofFile, h]

theorem answers_of_writes {enc : Encoding} {bytes : List UInt8} {text : List Char}
    {skip : Bool} {ts : List Token} (hname : Encoding.find o.encoding = .ok enc)
    (hf : files.contents (shownPath path) = .ok bytes) (hw : enc.Writes text bytes)
    (ht : textTokens o (shownPath path) skip 1 text = .ok ts) :
    kept skip (pulledTokens (answers files path o)) = ts ∧
      pulledFault (answers files path o) = none := by
  obtain ⟨s, hs, hstarts⟩ := Lexer.exists_starts_ofFile hname hf hw
  obtain ⟨hh, -⟩ : (s.harvest skip none).toStep.result = _ ∧ _ :=
    Lexer.result_harvest hstarts.offers.quiet
  rw [hstarts.options, hstarts.filename, hstarts.line, hstarts.ahead, ht, s.harvest_eq_pulls] at hh
  simp only [answers, hs]
  cases hfault : pulledFault s.pulls with
  | none =>
    rw [hfault] at hh
    cases hh
    exact ⟨rfl, rfl⟩
  | some e =>
    rw [hfault] at hh
    cases hh

/-! ## Cutting a run short -/

theorem exists_tokenLines_append (asJson : Bool) {ts us : List Token} (h : ts <+: us) :
    ∃ rest, tokenLines asJson us = tokenLines asJson ts ++ rest := by
  obtain ⟨more, rfl⟩ := h
  exact ⟨tokenLines asJson more, tokenLines_append asJson ts more⟩

section CutShort

variable {given given' : List (Except Fault (Option Token))}

theorem pulledTokens_of_cutShort (h : CutShort given given') :
    pulledTokens given' <+: pulledTokens given := by
  obtain ⟨front, e, rfl, hp⟩ := h
  have hf : pulledTokens (front ++ [.error (.scan e)]) = pulledTokens front := by
    simp [pulledTokens, Except.toOption]
  rw [hf]
  exact hp.filterMap _

theorem pulledFault_of_cutShort (h : CutShort given given') : pulledFault given' ≠ none := by
  obtain ⟨front, e, rfl, -⟩ := h
  simp [pulledFault]

end CutShort

theorem run_of_tighter {flags' : Flags} (files : Files) (h : l.flags.Tighter flags')
    (ho : Options.ofFlags l.flags env = .ok o) :
    (∃ rest, (l.run env files).output =
      (Listing.run { l with flags := flags' } env files).output ++ rest) ∧
    ((Listing.run { l with flags := flags' } env files).exit = .success →
      (l.run env files).exit = .success ∧
        (l.run env files).output = (Listing.run { l with flags := flags' } env files).output) := by
  obtain ⟨o', ho', hs⟩ := Options.ofFlags_stricter h ho
  have hrun := run_of_answers files ho
  have hrun' := run_of_answers (l := { l with flags := flags' }) files ho'
  rw [hrun.1, hrun'.1, hrun.2, hrun'.2]
  rcases answers_of_stricter hs files l.path with he | hcut
  · rw [he]
    exact ⟨⟨"", by rw [String.append_empty]⟩, fun hx => ⟨hx, rfl⟩⟩
  · have hprinted : kept l.skipDeleted (pulledTokens (answers files l.path o')) <+:
        kept l.skipDeleted (pulledTokens (answers files l.path o)) :=
      (pulledTokens_of_cutShort hcut).filter _
    refine ⟨exists_tokenLines_append l.asJson hprinted, fun hx => ?_⟩
    cases hf : pulledFault (answers files l.path o') with
    -- A run that is cut short ends with a scan error, so it is no success.
    | none => exact absurd hf (pulledFault_of_cutShort hcut)
    | some e =>
      have hcode : (ExitCode.after (pulledFault (answers files l.path o'))).code = 0 :=
        ExitCode.code_eq_zero_iff.2 hx
      rw [(ExitCode.code_after fun _ => fault_ne).1, hf] at hcode
      cases hcode

/-- A run over a file prints what a consumer of the file is given, and its exit code tells how that
ends. -/
structure Prints (l : Listing) (given : List (Except Fault (Option Token))) (outcome : Outcome) :
    Prop where
  output : outcome.output = tokenLines l.asJson (kept l.skipDeleted (pulledTokens given))
  json : l.asJson = true → outcome.output = String.join
    ((kept l.skipDeleted (pulledTokens given)).map fun t => t.jsonRecord ++ "\n")
  text : l.asJson = false → (outcome.output = listing (kept l.skipDeleted (pulledTokens given)) ↔
    ∀ t ∈ kept l.skipDeleted (pulledTokens given), Text.plain t.listed = t.listed)
  finished : outcome.exit.code = 0 ↔ pulledFault given = none
  scanError : outcome.exit.code = 1 ↔ ∃ g, pulledFault given = some (.scan g)
  unusable : outcome.exit.code = 2 ↔
    ∃ f, pulledFault given = some (.failure f) ∧ (f.IsLookup ∨ f.IsAccess)
  otherwise : outcome.exit.code = 3 ↔
    ∃ f, pulledFault given = some (.failure f) ∧ ¬(f.IsLookup ∨ f.IsAccess)

theorem prints_run (ho : Options.ofFlags l.flags env = .ok o) :
    Prints l (answers files l.path o) (l.run env files) := by
  obtain ⟨houtput, hexit⟩ := run_of_answers files ho
  obtain ⟨hzero, hone, htwo, hthree⟩ :=
    ExitCode.code_after fun e (he : pulledFault (answers files l.path o) = some e) => fault_ne he
  rw [← hexit] at hzero hone htwo hthree
  refine ⟨houtput, fun hj => ?_, fun hj => ?_, hzero, hone, htwo, hthree⟩
  · rw [houtput, hj, tokenLines_json]
  · rw [houtput, hj, tokenLines_text_eq_iff]

theorem run_of_unknownName (ho : Options.ofFlags l.flags env = .ok o)
    (hn : '\x00' ∉ o.encoding.toList) (he : ∀ e, Encoding.find o.encoding ≠ .ok e) :
    (l.run env files).output = "" ∧ (l.run env files).exit.code = 2 := by
  obtain ⟨houtput, hexit⟩ := run_of_answers files ho
  rw [houtput, hexit, answers_of_unknownName ((Encoding.find_cases hn).resolve_left ?_)]
  · cases l.asJson <;> exact ⟨rfl, rfl⟩
  · rintro ⟨e, hf⟩
    exact he e hf

theorem run_of_list (h : Request.parse args files = .ok (.list l)) :
    run args env files = l.run env files := by
  simp only [run, h]

end CommandLine

open CommandLine in
/-- The output of a run over a file is the listing of the tokens that a consumer of the file is
given up to the end or the first fault, but for the control sequences in a listing of text, and the
exit code tells which of the two it was. Flags added that tighten a policy cut the output short, or
leave it as it is. -/
theorem run_lists_file {args : List String} {a : Arguments} {env : Environment} {files : Files}
    {l : Listing} (hparse : Arguments.parse none args = .ok a)
    (hl : a.request files = .ok (.list l))
    (henv : ∀ name value, env.lookup name = some value → '\x00' ∉ value.toList) :
    (l.skipDeleted = true ↔ ∃ g ∈ a.given, g.setting = .skipDeleted) ∧
    ∃ o, Options.ofFlags l.flags env = .ok o ∧
      Prints l (answers files l.path o) (run args env files) ∧
      ('\x00' ∉ o.encoding.toList → (∀ e, Encoding.find o.encoding ≠ .ok e) →
        (run args env files).output = "" ∧ (run args env files).exit.code = 2) ∧
      ∀ args' a', Arguments.parse none args' = .ok a' → AddsStrict a.given a'.given →
        a'.operands = a.operands →
        (∃ rest, (run args env files).output = (run args' env files).output ++ rest) ∧
        ((run args' env files).exit.code = 0 → (run args env files).exit.code = 0 ∧
          (run args env files).output = (run args' env files).output) := by
  have hskip : l.skipDeleted = true ↔ ∃ g ∈ a.given, g.setting = .skipDeleted := by
    obtain ⟨-, -, path, -, rfl⟩ := Arguments.request_eq_list_iff.1 hl
    simp only [Arguments.listing, Arguments.has, List.any_eq_true, decide_eq_true_eq]
  have hargs : Request.parse args files = .ok (.list l) :=
    parse_eq_list_iff.2 ⟨a, hparse, hl⟩
  obtain ⟨o, ho⟩ : ∃ o, Options.ofFlags l.flags env = .ok o :=
    Options.exists_ofFlags (henv Options.encodingVariable) fun value => find_of_parse hargs
  rw [run_of_list hargs]
  refine ⟨hskip, o, ho, prints_run ho, run_of_unknownName ho, fun args' a' hparse' hadded hop => ?_⟩
  obtain ⟨flags', htighter, hl'⟩ := Arguments.request_of_added hadded hop hl
  obtain ⟨hrest, hsame⟩ := run_of_tighter files htighter ho
  rw [run_of_list (parse_eq_list_iff.2 ⟨a', hparse', hl'⟩)]
  refine ⟨hrest, fun hcode => ?_⟩
  obtain ⟨hexit, houtput⟩ := hsame (ExitCode.code_eq_zero_iff.1 hcode)
  exact ⟨ExitCode.code_eq_zero_iff.2 hexit, houtput⟩

theorem run_lists_file_of_openLiteral :
    let files : Files := fun _ => .ok (.file [0x78, 0x20, 0x27, 0x79])
    let l : CommandLine.Listing :=
      { path := "a", flags := {}, skipDeleted := false, asJson := false, verbose := false }
    CommandLine.Arguments.parse none ["a"] = .ok ⟨[], ["a"]⟩ ∧
    CommandLine.Arguments.request ⟨[], ["a"]⟩ files = .ok (.list l) ∧
    ∃ o, Options.ofFlags l.flags [] = .ok o ∧
      CommandLine.Prints l (CommandLine.answers files "a" o) (CommandLine.run ["a"] [] files) ∧
      ∃ rest, (CommandLine.run ["a"] [] files).output =
        (CommandLine.run ["--strict-strings", "a"] [] files).output ++ rest := by
  intro files l
  have hparse : CommandLine.Arguments.parse none ["a"] = .ok ⟨[], ["a"]⟩ := by decide +kernel
  have hl : CommandLine.Arguments.request ⟨[], ["a"]⟩ files = .ok (.list l) := by decide +kernel
  have henv : ∀ name value, List.lookup name ([] : Environment) = some value →
      '\x00' ∉ value.toList := nofun
  obtain ⟨-, o, ho, hprints, -, hstrict⟩ := run_lists_file hparse hl henv
  obtain ⟨hrest, -⟩ := hstrict _ _
    (CommandLine.Arguments.parse_cons_of_tightens (s := .strictStrings) trivial hparse)
    (.add trivial (.refl _)) rfl
  exact ⟨hparse, hl, o, ho, hprints, hrest⟩

/-- The literal `'\x1b[m'` is printed like the empty one. -/
theorem control_sequence_not_printed :
    let files : Files := fun _ => .ok (.file [0x27, 0x1B, 0x5B, 0x6D, 0x27])
    ∃ o ts, Options.ofFlags {} [] = .ok o ∧
      kept false (Lexer.pulledTokens (CommandLine.answers files "a" o)) = ts ∧
      listing ts = "Token[type=STRING, value='\x1b[m', line=1]\n" ∧
      (CommandLine.run ["a"] [] files).output = "Token[type=STRING, value='', line=1]\n" := by
  intro files
  have hargs : CommandLine.Request.parse ["a"] files = .ok (.list
      { path := "a", flags := {}, skipDeleted := false, asJson := false, verbose := false }) := by
    decide +kernel
  have hflags : Options.ofFlags {} [] = .ok {} := by decide +kernel
  have hshown : shownPath "a" = "a" :=
    shownPath_of_notMem (by decide) (by decide) (by decide)
  have hfile : files.contents (shownPath "a") = .ok [0x27, 0x1B, 0x5B, 0x6D, 0x27] := by
    rw [hshown]
    decide +kernel
  have hname : Encoding.find ({} : Options).encoding = .ok .utf8 := by decide +kernel
  have hbytes : Encoding.utf8.Writes ['\'', '\x1b', '[', 'm', '\'']
      [0x27, 0x1B, 0x5B, 0x6D, 0x27] :=
    Encoding.writes_of_encode? (by decide) (by decide +kernel)
  have htext : textTokens {} (shownPath "a") false 1 ['\'', '\x1b', '[', 'm', '\''] =
      .ok [⟨.string, "\x1b[m", 1, "a"⟩] := by
    have ho : (Segment.first '\'' ['\x1b', '[', 'm', '\'']).outcome {} "a" 1 =
        .ok (some ⟨.string, "\x1b[m", 1, "a"⟩) := by decide +kernel
    have hr : (Segment.first '\'' ['\x1b', '[', 'm', '\'']).rest = [] := by decide +kernel
    rw [hshown, textTokens_of_ok ho, hr, textTokens_nil]
    rfl
  obtain ⟨hkept, -⟩ := CommandLine.answers_of_writes hname hfile hbytes htext
  refine ⟨{}, _, hflags, hkept, by decide +kernel, ?_⟩
  rw [CommandLine.run_of_list hargs, (CommandLine.run_of_answers files hflags).1, hkept]
  decide +kernel

end RpalLexer
