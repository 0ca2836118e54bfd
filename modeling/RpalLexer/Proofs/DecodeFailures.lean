import RpalLexer.CommandLine.Run
import RpalLexer.Proofs.AllowedFaults

/-!
# Decoding failures

Undecodable bytes are a read error for everyone who reads them: the reader goes by its policy, a
lexer reports what its policies ask for, and a run on a file ends with a scan error at worst. There
is one exception, UTF-16 without a mark, whose failure no policy is about. Main statement:
`decode_failures_go_by_policy`.
-/
namespace RpalLexer

open Encoding (noMarkFailure)

namespace Encoding

variable {e : Encoding} {bytes : List UInt8} {stop : Option Failure} {text : List Char}

theorem Ending.undecodable (h : e.Ending bytes stop text) (hl : ¬e.LacksMark bytes) :
    ∀ f, stop = some f → ∃ g, f = .undecodable g := by
  intro f hf
  cases h with
  | whole | cutMark => cases hf
  | broken =>
    cases hf
    exact ⟨_, rfl⟩
  | noMark hl' => exact absurd hl' hl

theorem Ending.of_lacksMark (h : e.Ending bytes stop text) (hl : e.LacksMark bytes) :
    stop = some noMarkFailure ∧ text = [] := by
  cases h with
  | whole ht hl' => exact absurd hl hl'
  | cutMark hcut => cases hl.1.symm.trans hcut.1
  | broken hno hl' => exact absurd hl hl'
  | noMark => exact ⟨rfl, rfl⟩

end Encoding

namespace Reader

variable {r : Reader} {f : Failure} {stop : Option Failure} {text : List Char} {e : Encoding}
  {bytes : List UInt8}

theorem Leads.sound (h : Leads stop text r) (hend : e.Ending bytes stop text)
    (hl : ¬e.LacksMark bytes) : r.Sound r.filename r.policy :=
  ⟨rfl, rfl, Or.inr ⟨stop, text, h, hend.undecodable hl⟩⟩

theorem Leads.read_other (h : Leads (some f) [] r) (hf : f.isReadError = false) :
    ∃ supply : Supply, supply.Closable ∧
      ∀ line, r.read line = ⟨.error (.failure f), { r with supply }⟩ := by
  obtain ⟨supply, hc, hr⟩ := h.read_nil
  refine ⟨supply, hc, fun line => ?_⟩
  rw [hr line, lastStep, hf]
  rfl

theorem closes_read (supply : Supply) (filename : String) (policy : ReadPolicy) (uses : List Use)
    (line : Option Int) :
    let step := (afterUses { supply, filename, policy } uses).read line
    step.state.supply.closes = supply.closes + if step.state.exhausted then 1 else 0 :=
  (((lifetime_start supply filename policy).afterUses uses).use (.read line)).closes_eq

end Reader

namespace Lexer

variable {s : Lexer} {f : Failure} {e : Fault} {filename : String} {o : Options}

theorem Sound.tokensAndClose_error (h : s.Sound filename o) {skip : Bool}
    (he : (s.tokensAndClose skip).result = .error e) : o.Allows e := by
  rw [h.result_tokensAndClose skip, Harvest.toStep] at he
  split at he
  · cases he
  · rename_i e' hf
    cases he
    exact h.harvest_fault skip none hf

theorem tokensAndClose_of_other (h : s.reader.Leads (some f) []) (hf : f.isReadError = false)
    (hs : s.slot = none) (skip : Bool) :
    (s.tokensAndClose skip).result = .error (.failure f) := by
  obtain ⟨supply, hc, hr⟩ := h.read_other hf
  set r' : Reader := { s.reader with supply }
  have hp : s.peek = ⟨.error (.failure f), { s with reader := r' }⟩ := by
    rw [peek, hs]
    simp only [hr]
  have hn : s.nextToken = ⟨.error (.failure f), { s with reader := r' }⟩ := by
    simp only [nextToken, advance, hp]
  have hm : s.hasMore = true := by simp [hasMore, Reader.exhausted, h.isOpen]
  have hclose : ({ s with reader := r' } : Lexer).close.result = .ok () := by
    have hr' : r'.close.result = .ok () := by
      rw [Reader.close, if_pos h.isOpen]
      exact hc
    simp only [close, Reader.shut, hr']
    rfl
  rw [tokensAndClose, harvest_of_error hm hn, Harvest.toStep, Step.thenAlways,
    Step.eq_of_result hclose]

theorem ofFile_eq {e : Encoding} {bytes : List UInt8} {files : Files} {path : String}
    (hname : Encoding.find o.encoding = .ok e) (hf : files.contents (shownPath path) = .ok bytes) :
    (ofFile files path o).result =
      .ok (ofSupply (.bytes o.encoding (.ofEncoding e) (.ofItems bytes)) (shownPath path) o) := by
  simp only [ofFile, hname, hf, ofByteStream_eq hname]

theorem scanFile_eq {e : Encoding} {bytes : List UInt8} {files : Files} {path : String}
    (hname : Encoding.find o.encoding = .ok e) (hf : files.contents (shownPath path) = .ok bytes)
    (skip : Bool) : scanFile files path o skip =
      ((ofSupply (.bytes o.encoding (.ofEncoding e) (.ofItems bytes)) (shownPath path)
        o).tokensAndClose skip).result := by
  rw [scanFile, ofFile_eq hname hf]

theorem ofSupply_cases {e : Encoding} (he : e ≠ .undefined) (bytes : List UInt8)
    (filename : String) (o : Options) :
    let s := ofSupply (.bytes o.encoding (.ofEncoding e) (.ofItems bytes)) filename o
    ¬e.LacksMark bytes ∧ s.Sound filename o ∨
      e.LacksMark bytes ∧
        ∀ skip, (s.tokensAndClose skip).result = .error (.failure noMarkFailure) := by
  intro s
  obtain ⟨stop, text, hs, hend⟩ := Encoding.exists_ending he o.encoding bytes
  have hleads := Reader.leads_ofSupply hs rfl filename o.readErrors
  by_cases hl : e.LacksMark bytes
  · obtain ⟨rfl, rfl⟩ := hend.of_lacksMark hl
    exact Or.inr ⟨hl, tokensAndClose_of_other hleads rfl rfl⟩
  · exact Or.inl ⟨hl, rfl, hleads.sound hend hl⟩

end Lexer

theorem not_allows_lenient (name : String) (e : Fault) :
    ¬Options.Allows { readErrors := .endOfInput, encoding := name } e := by
  intro h
  unfold Options.Allows at h
  split at h <;> cases h

theorem Lexer.Sound.exists_tokens {s : Lexer} {filename name : String}
    (h : s.Sound filename { readErrors := .endOfInput, encoding := name }) (skip : Bool) :
    ∃ ts, (s.tokensAndClose skip).result = .ok ts := by
  cases hr : (s.tokensAndClose skip).result with
  | ok ts => exact ⟨ts, rfl⟩
  | error e => exact absurd (h.tokensAndClose_error hr) (not_allows_lenient name e)

theorem scanFile_ok_iff {name : String} {e : Encoding} {bytes : List UInt8} {files : Files}
    {path : String} (hname : Encoding.find name = .ok e) (he : e ≠ .undefined)
    (hf : Files.contents files (shownPath path) = .ok bytes) (skip : Bool) :
    (∃ ts, scanFile files path { readErrors := .endOfInput, encoding := name } skip = .ok ts) ↔
      ¬e.LacksMark bytes := by
  generalize ho : ({ readErrors := .endOfInput, encoding := name } : Options) = o
  have hname : Encoding.find o.encoding = .ok e := by
    subst ho
    exact hname
  rw [Lexer.scanFile_eq hname hf]
  rcases Lexer.ofSupply_cases he bytes (shownPath path) o with ⟨hl, hs⟩ | ⟨hl, hr⟩
  · subst ho
    exact iff_of_true (hs.exists_tokens skip) hl
  · refine iff_of_false ?_ (not_not_intro hl)
    rintro ⟨ts, hts⟩
    cases (hr skip).symm.trans hts

namespace CommandLine

theorem exit_of_allows {o : Options} {e : Fault} (h : o.Allows e) :
    ExitCode.ofFault e = .scanError := by
  cases e with
  | scan e => rfl
  | failure f => exact absurd h id

theorem exit_listTokens (l : Listing) (opening : List Event) (s : Lexer) :
    (listTokens l opening s).exit =
      match (s.tokensAndClose l.skipDeleted).result with
      | .ok _ => .success
      | .error e => .ofFault e := by
  rw [listTokens, Lexer.tokensAndClose]
  split <;> simp_all

variable {args : List String} {env : Environment} {files : Files} {l : Listing} {o : Options}
  {e : Encoding} {bytes : List UInt8}

theorem exit_run (hargs : Request.parse args files = .ok (.list l))
    (ho : Options.ofFlags l.flags env = .ok o) (hname : Encoding.find o.encoding = .ok e)
    (hf : files.contents (shownPath l.path) = .ok bytes) : (run args env files).exit =
      match ((Lexer.ofSupply (.bytes o.encoding (.ofEncoding e) (.ofItems bytes))
        (shownPath l.path) o).tokensAndClose l.skipDeleted).result with
      | .ok _ => .success
      | .error e => .ofFault e := by
  simp only [run, hargs, Listing.run, ho, Lexer.ofFile_eq hname hf, exit_listTokens]

theorem exit_run_eq_internalError_iff (hargs : Request.parse args files = .ok (.list l))
    (ho : Options.ofFlags l.flags env = .ok o) (hname : Encoding.find o.encoding = .ok e)
    (he : e ≠ .undefined) (hf : files.contents (shownPath l.path) = .ok bytes) :
    (run args env files).exit = .internalError ↔ e.LacksMark bytes := by
  rw [exit_run hargs ho hname hf]
  rcases Lexer.ofSupply_cases he bytes (shownPath l.path) o with ⟨hl, hs⟩ | ⟨hl, hr⟩
  · refine iff_of_false ?_ hl
    split
    · decide
    · rename_i g hg
      rw [exit_of_allows (hs.tokensAndClose_error hg)]
      decide
  · rw [hr]
    exact iff_of_true rfl hl

end CommandLine

/-- Where the bytes of a file are not UTF-16 without a mark, every failure of decoding goes by the
policy for read errors, in whatever order a reader is used, and the reader has closed its stream
then. So scanning under the lenient policies succeeds, and a run does not end in an internal
error. Without its mark UTF-16 fails in the first read, under either policy, and the stream stays
open. -/
theorem decode_failures_go_by_policy {name : String} {e : Encoding}
    (hname : Encoding.find name = .ok e) (he : e ≠ .undefined) (bytes : List UInt8) :
    (∀ filename policy, ∃ r, Reader.ofBytes (.ofItems bytes) name filename policy = .ok r ∧
      (¬e.LacksMark bytes → ∀ uses line,
        let step := (r.afterUses uses).read line
        Reader.GoesBy filename policy line step ∧
          (step.state.exhausted = true → step.state.supply.closes = 1)) ∧
      (e.LacksMark bytes → ∀ line,
        let step := r.read line
        step.result = .error (.failure noMarkFailure) ∧ step.state.exhausted = false ∧
          step.state.supply.closes = 0)) ∧
    (∀ files path, Files.contents files (shownPath path) = .ok bytes →
      let o : Options := { readErrors := .endOfInput, encoding := name }
      (∃ s, (Lexer.ofFile files path o).result = .ok s ∧ (¬e.LacksMark bytes →
        ∀ requests, ∀ reply ∈ (Session.mk s []).replies requests, reply.fault? = none)) ∧
      ∀ skip, (∃ ts, scanFile files path o skip = .ok ts) ↔ ¬e.LacksMark bytes) ∧
    ∀ args env files l o, CommandLine.Request.parse args files = .ok (.list l) →
      Options.ofFlags l.flags env = .ok o → o.encoding = name →
      Files.contents files (shownPath l.path) = .ok bytes →
      ((CommandLine.run args env files).exit = .internalError ↔ e.LacksMark bytes) := by
  refine ⟨fun filename policy => ?_, fun files path hf => ?_, ?_⟩
  · obtain ⟨supply, stop, text, hr, hsupply, hleads, hend⟩ :=
      Reader.exists_leads hname he bytes filename policy
    refine ⟨_, hr, fun hl uses line => ⟨?_, fun hex => ?_⟩, fun hl line => ?_⟩
    · exact (((hleads.sound hend hl).afterUses uses).read line).2
    · rw [Reader.closes_read, if_pos hex, hsupply]
      rfl
    · obtain ⟨rfl, rfl⟩ := hend.of_lacksMark hl
      obtain ⟨supply', -, hread⟩ := hleads.read_other rfl
      intro step
      have hstep : step = _ := hread line
      have hopen : step.state.exhausted = false := by
        rw [hstep]
        rfl
      have hcloses : step.state.supply.closes =
          supply.closes + if step.state.exhausted then 1 else 0 :=
        Reader.closes_read supply filename policy [] line
      rw [hopen, hsupply] at hcloses
      exact ⟨congrArg Step.result hstep, hopen, hcloses⟩
  · intro o
    have hcases := Lexer.ofSupply_cases he bytes (shownPath path) o
    refine ⟨⟨_, Lexer.ofFile_eq hname hf, fun hl requests reply hmem => ?_⟩, fun skip => ?_⟩
    · rcases hcases with ⟨-, hs⟩ | ⟨hl', -⟩
      · rw [Option.eq_none_iff_forall_ne_some]
        intro g hg
        exact not_allows_lenient name g
          (Session.replies_fault (u := ⟨_, []⟩) hs requests reply hmem g hg)
      · exact absurd hl' hl
    · exact scanFile_ok_iff hname he hf skip
  · rintro args env files l o hargs ho rfl hf
    exact CommandLine.exit_run_eq_internalError_iff hargs ho hname he hf

theorem cut_off_unit_goes_by_policy :
    let bytes : List UInt8 := [0xFF, 0xFE, 0x61]
    let files : Files := fun _ => .ok (.file bytes)
    (∃ r, Reader.ofBytes (.ofItems bytes) "utf-16" "a" .raise = .ok r ∧
      Reader.GoesBy "a" .raise (some 1) (r.read (some 1))) ∧
    (∃ ts, scanFile files "a" { readErrors := .endOfInput, encoding := "utf-16" } true = .ok ts) ∧
    (CommandLine.run ["-e", "utf-16", "a"] [] files).exit ≠ .internalError := by
  intro bytes files
  have hname : Encoding.find "utf-16" = .ok .utf16Marked := by decide +kernel
  obtain ⟨hreader, hscan, hrun⟩ := decode_failures_go_by_policy hname (by decide) bytes
  have hl : ¬Encoding.utf16Marked.LacksMark bytes := by
    rintro ⟨-, hm, -⟩
    cases hm
  obtain ⟨r, hr, hgoes, -⟩ := hreader "a" .raise
  have hshown : shownPath "a" = "a" :=
    shownPath_of_notMem (by decide) (by decide) (by decide)
  have hfile : Files.contents files (shownPath "a") = .ok bytes := by
    rw [hshown]
    decide +kernel
  have hargs : CommandLine.Request.parse ["-e", "utf-16", "a"] files = .ok (.list
      { path := "a", flags := { encoding := some "utf-16" }, skipDeleted := false,
        asJson := false, verbose := false }) := by decide +kernel
  have ho : Options.ofFlags { encoding := some "utf-16" } [] = .ok { encoding := "utf-16" } := by
    decide +kernel
  refine ⟨⟨r, hr, (hgoes hl [] (some 1)).1⟩, ((hscan files "a" hfile).2 true).2 hl, ?_⟩
  rw [Ne, hrun _ [] files _ _ hargs ho rfl hfile]
  exact hl

/-- UTF-16 without a mark fails under the policy that is to end the input, and the reader is not
exhausted then. -/
theorem missing_mark_escapes_policy : ∃ r,
    Reader.ofBytes (.ofItems [0x61, 0x62]) "utf-16" "a" .endOfInput = .ok r ∧
      (r.read none).result = .error (.failure noMarkFailure) ∧
      (r.read none).state.exhausted = false := by
  have hname : Encoding.find "utf-16" = .ok .utf16Marked := by decide +kernel
  obtain ⟨supply, stop, text, hr, -, hleads, hend⟩ :=
    Reader.exists_leads hname (by decide) [0x61, 0x62] "a" .endOfInput
  have hl : Encoding.utf16Marked.LacksMark [0x61, 0x62] :=
    ⟨rfl, by decide, Char.ofNat 0x6261, [0x61, 0x62], by decide +kernel, List.prefix_refl _⟩
  obtain ⟨rfl, rfl⟩ := hend.of_lacksMark hl
  obtain ⟨supply', -, hread⟩ := hleads.read_other rfl
  refine ⟨_, hr, ?_⟩
  rw [hread none]
  exact ⟨rfl, rfl⟩

end RpalLexer
