import RpalLexer.Proofs.RunOutcome

/-!
# Listings in JSON

A listing in JSON has one line for every token, and the lines read as JSON give the tokens back.
Main statement: `json_listing_lossless`.
-/
namespace RpalLexer

namespace Json

def readLines (output : String) : Option (List Record) :=
  let lines := output.toList.splitOn '\n'
  if lines.getLast? = some [] then lines.dropLast.mapM readRecord else none

/-- An output has a line of printable ASCII characters for every token, and the lines read as JSON
say what the tokens are. -/
structure Lists (output : String) (ts : List Token) : Prop where
  lines : ∃ lines : List (List Char), output.toList.splitOn '\n' = lines ++ [[]] ∧
    lines.length = ts.length ∧ ∀ line ∈ lines, Text.PrintableAscii line
  records : readLines output = some (ts.map Token.fields)

theorem mapM_readRecord (ts : List Token) :
    (ts.map fun t => t.jsonRecord.toList).mapM readRecord = some (ts.map Token.fields) := by
  induction ts with
  | nil => rfl
  | cons t ts ih =>
    rw [List.map_cons, List.mapM_cons, t.readRecord_jsonRecord, ih]
    rfl

end Json

namespace CommandLine

variable {ts us : List Token}

theorem splitOn_tokenLines_json (ts : List Token) :
    (tokenLines true ts).toList.splitOn '\n' = ts.map (fun t => t.jsonRecord.toList) ++ [[]] := by
  rw [tokenLines_json]
  induction ts with
  | nil => rfl
  | cons t ts ih =>
    have hnewline : ∀ c ∈ t.jsonRecord.toList, (c == '\n') = false := by
      intro c hc
      refine beq_eq_false_iff_ne.2 fun he => ?_
      exact t.printableAscii_jsonRecord.notMem (c := '\n') (by decide) (he ▸ hc)
    rw [List.map_cons, String.join_cons, String.toList_append, String.toList_append,
      List.append_assoc, List.map_cons, List.cons_append, ← ih]
    exact List.splitOnP_append_cons_of_forall_mem hnewline '\n' rfl _

theorem lists_tokenLines (ts : List Token) : Json.Lists (tokenLines true ts) ts where
  lines := by
    refine ⟨_, splitOn_tokenLines_json ts, List.length_map _, fun line hline => ?_⟩
    obtain ⟨t, -, rfl⟩ := List.mem_map.1 hline
    exact t.printableAscii_jsonRecord
  records := by
    simp only [Json.readLines, splitOn_tokenLines_json, List.getLast?_concat, if_true,
      List.dropLast_concat, Json.mapM_readRecord]

theorem map_shown_of_fields (h : ts.map Token.fields = us.map Token.fields) :
    ts.map Token.shown = us.map Token.shown := by
  induction ts generalizing us with
  | nil =>
    rw [List.map_nil, eq_comm, List.map_eq_nil_iff] at h
    rw [h]
  | cons t ts ih =>
    cases us with
    | nil => cases h
    | cons u us =>
      rw [List.map_cons, List.map_cons, List.cons.injEq] at h ⊢
      exact ⟨Token.fields_eq_iff.1 h.1, ih h.2⟩

end CommandLine

open CommandLine in
/-- A listing in JSON has a line for every token, whatever the texts hold, and gives back the kinds,
texts and lines of the tokens, and so does the output of every run that is to list in JSON. -/
theorem json_listing_lossless :
    (∀ ts, Json.Lists (tokenLines true ts) ts) ∧
    (∀ ts us, tokenLines true ts = tokenLines true us →
      ts.map Token.shown = us.map Token.shown) ∧
    ∀ args env files l o, Request.parse args files = .ok (.list l) → l.asJson = true →
      Options.ofFlags l.flags env = .ok o →
      Json.Lists (run args env files).output
        (kept l.skipDeleted (Lexer.pulledTokens (answers files l.path o))) := by
  refine ⟨lists_tokenLines, fun ts us h => ?_, fun args env files l o hargs hjson ho => ?_⟩
  · have hts := (lists_tokenLines ts).records
    rw [h, (lists_tokenLines us).records] at hts
    exact map_shown_of_fields (Option.some_inj.1 hts).symm
  · rw [run_of_list hargs, (run_of_answers files ho).1, hjson]
    exact lists_tokenLines _

theorem json_listing_lossless_of_escapes :
    let text := "\\'\x22\n\r\x00\u2028😀"
    let ts : List Token := [⟨.string, text, 1, "a"⟩, ⟨.delete, "\n", 2, "a"⟩]
    let us : List Token := [⟨.string, text, 1, "b"⟩, ⟨.delete, "\n", 2, "b"⟩]
    let files : Files := fun _ => .ok (.file [0x27, 0x22, 0x27])
    Json.Lists (CommandLine.tokenLines true ts) ts ∧ ts.map Token.shown = us.map Token.shown ∧
    ∃ ts, Json.Lists (CommandLine.run ["-f", "json", "a"] [] files).output ts := by
  intro text ts us files
  obtain ⟨hlists, hinjective, hrun⟩ := json_listing_lossless
  have hargs : CommandLine.Request.parse ["-f", "json", "a"] files = .ok (.list
      { path := "a", flags := {}, skipDeleted := false, asJson := true, verbose := false }) := by
    decide +kernel
  have ho : Options.ofFlags {} [] = .ok {} := by decide +kernel
  exact ⟨hlists ts, hinjective ts us rfl, _, hrun _ _ _ _ _ hargs rfl ho⟩

end RpalLexer
