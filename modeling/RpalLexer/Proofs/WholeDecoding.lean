import RpalLexer.Proofs.MarkedBytes

/-!
# Decoding a whole input

What a reader does with what its stream has left, up to the end of the input or a failure. Draining
it ends cleanly where the whole of the bytes is a text; the one exception is a mark of UTF-8 that is
cut off, which passes for no input at all. Main statement: `clean_end_iff`.
-/
namespace RpalLexer

namespace Reader

variable {r r' : Reader} {stop : Option Failure} {cs : List Char} {c : Char} {line : Option Int}

/-- The reader has `cs` left to give out; what comes after that is the end, or a failure. -/
structure Leads (stop : Option Failure) (cs : List Char) (r : Reader) : Prop where
  isOpen : r.isOpen = true
  closable : r.supply.Closable
  hands : ∃ rest, r.supply.Hands stop rest ∧ cs = r.pending ++ rest

theorem Leads.read_cons (h : Leads stop (c :: cs) r) : ∃ supply pending,
    (∀ line, r.read line = ⟨.ok (some c), { r with supply, pending }⟩) ∧
      Leads stop cs { r with supply, pending } := by
  obtain ⟨ho, hc, rest, hs, hcs⟩ := h
  cases hp : r.pending with
  | cons d pending =>
    rw [hp, List.cons_append, List.cons.injEq] at hcs
    obtain ⟨rfl, rfl⟩ := hcs
    exact ⟨r.supply, pending, fun line => (ReadCase.waiting hp).read_eq, ho, hc, rest, hs, rfl⟩
  | nil =>
    rw [hp, List.nil_append] at hcs
    subst hcs
    cases hs with
    | @piece _ next _ piece ds hn hs =>
      exact ⟨next, piece, fun line => (ReadCase.piece hp ho hn).read_eq, ho, hc.of_next hn, ds, hs,
        rfl⟩

def lastStep (r : Reader) (line : Option Int) (supply : Supply) :
    Option Failure → Step Fault Reader (Option Char)
  | none => ⟨.ok none, (r.closedOn supply).note (.endOfInput r.filename)⟩
  | some f =>
    if f.isReadError then
      match r.policy with
      | .raise => ⟨.error (.scan (.unreadable r.filename f line)), r.closedOn supply⟩
      | .endOfInput => ⟨.ok none, (r.closedOn supply).note (.readError r.filename f)⟩
    else ⟨.error (.failure f), { r with supply }⟩

theorem Leads.read_nil (h : Leads stop [] r) :
    ∃ supply : Supply, supply.Closable ∧ ∀ line, r.read line = r.lastStep line supply stop := by
  obtain ⟨ho, hc, rest, hs, hcs⟩ := h
  obtain ⟨hp, rfl⟩ := List.append_eq_nil_iff.1 hcs.symm
  generalize hrest : ([] : List Char) = rest at hs
  cases hs with
  | piece hn hs => cases hrest
  | stop h =>
    have hn := Step.eq_of_result h
    have hc := hc.of_next hn
    have hclose := hc.close_eq
    cases stop with
    | none => exact ⟨_, hc.of_close, fun line => (ReadCase.ended hp ho hn hclose).read_eq⟩
    | some f =>
      by_cases hf : f.isReadError = true
      · refine ⟨r.supply.next.state.close.state, hc.of_close, fun line => ?_⟩
        rw [lastStep, if_pos hf]
        cases hpolicy : r.policy with
        | raise => exact (ReadCase.reported hp ho hn hf hclose hpolicy).read_eq
        | endOfInput => exact (ReadCase.passedOver hp ho hn hf hclose hpolicy).read_eq
      · refine ⟨r.supply.next.state, hc, fun line => ?_⟩
        rw [lastStep, if_neg hf]
        exact (ReadCase.otherFailure hp ho hn (by simpa using hf)).read_eq

theorem leads_ofSupply {supply : Supply} (hs : supply.Hands stop cs) (hc : supply.Closable)
    (filename : String) (policy : ReadPolicy) :
    Leads stop cs { supply, filename, policy } :=
  ⟨rfl, hc, cs, hs, rfl⟩

theorem drain_of_read_some (h : r.read line = ⟨.ok (some c), r'⟩) :
    r.drain line = ⟨(r'.drain line).result.map (c :: ·), (r'.drain line).state⟩ := by
  rw [drain]
  split
  · rename_i hr
    cases h.symm.trans hr
  · rename_i hr
    cases h.symm.trans hr
  · rename_i hr
    cases h.symm.trans hr
    split
    · rename_i hd
      rw [hd]
      rfl
    · rename_i hd
      rw [hd]
      rfl

theorem drain_of_read_none (h : r.read line = ⟨.ok none, r'⟩) : r.drain line = ⟨.ok [], r'⟩ := by
  rw [drain]
  split <;> simp_all

theorem drain_of_read_error {e : Fault} (h : r.read line = ⟨.error e, r'⟩) :
    r.drain line = ⟨.error e, r'⟩ := by
  rw [drain]
  split <;> simp_all

/-- Draining the reader comes to the end of the input with the characters `cs`, and no read that
failed is on record. -/
def EndsCleanly (r : Reader) (line : Option Int) (cs : List Char) : Prop :=
  (r.drain line).result = .ok cs ∧ ∀ filename f, .readError filename f ∉ (r.drain line).state.log

theorem endsCleanly_of_read_some (h : r.read line = ⟨.ok (some c), r'⟩) {cs' : List Char} :
    r.EndsCleanly line cs' ↔ ∃ cs, cs' = c :: cs ∧ r'.EndsCleanly line cs := by
  rw [EndsCleanly, drain_of_read_some h]
  cases hd : (r'.drain line).result with
  | error e => simp [EndsCleanly, hd, Except.map]
  | ok ds =>
    simp only [EndsCleanly, hd, Except.map, Except.ok.injEq]
    constructor
    · rintro ⟨rfl, hl⟩
      exact ⟨ds, rfl, rfl, hl⟩
    · rintro ⟨cs, rfl, rfl, hl⟩
      exact ⟨rfl, hl⟩

theorem Leads.endsCleanly_nil (h : Leads stop [] r)
    (hlog : ∀ filename f, .readError filename f ∉ r.log) (line : Option Int) :
    r.EndsCleanly line cs ↔ stop = none ∧ cs = [] := by
  obtain ⟨supply, -, hr⟩ := h.read_nil
  have hr := hr line
  cases stop with
  | none =>
    rw [EndsCleanly, drain_of_read_none hr]
    simp [note, closedOn, hlog, eq_comm]
  | some f =>
    rw [lastStep] at hr
    split_ifs at hr with hf
    · cases hp : r.policy with
      | raise =>
        rw [hp] at hr
        rw [EndsCleanly, drain_of_read_error hr]
        simp
      | endOfInput =>
        rw [hp] at hr
        rw [EndsCleanly, drain_of_read_none hr]
        constructor
        · rintro ⟨-, hl⟩
          exact absurd List.mem_cons_self (hl r.filename f)
        · rintro ⟨hs, -⟩
          cases hs
    · rw [EndsCleanly, drain_of_read_error hr]
      simp

theorem Leads.endsCleanly_iff {cs' : List Char} (h : Leads stop cs r)
    (hlog : ∀ filename f, .readError filename f ∉ r.log) (line : Option Int) :
    r.EndsCleanly line cs' ↔ stop = none ∧ cs' = cs := by
  induction cs generalizing r cs' with
  | nil => exact h.endsCleanly_nil hlog line
  | cons c cs ih =>
    obtain ⟨supply, pending, hr, h'⟩ := h.read_cons
    rw [endsCleanly_of_read_some (hr line)]
    constructor
    · rintro ⟨ds, rfl, hd⟩
      obtain ⟨hs, rfl⟩ := (ih h' hlog).1 hd
      exact ⟨hs, rfl⟩
    · rintro ⟨hs, rfl⟩
      exact ⟨cs, rfl, (ih h' hlog).2 ⟨hs, rfl⟩⟩

variable {name : String} {e : Encoding}

theorem exists_leads (hname : Encoding.find name = .ok e) (he : e ≠ .undefined)
    (bytes : List UInt8) (filename : String) (policy : ReadPolicy) : ∃ supply stop text,
      ofBytes (.ofItems bytes) name filename policy = .ok { supply, filename, policy } ∧
      supply = .bytes name (.ofEncoding e) (.ofItems bytes) ∧
      Leads stop text { supply, filename, policy } ∧ e.Ending bytes stop text := by
  obtain ⟨stop, text, hs, hend⟩ := Encoding.exists_ending he name bytes
  exact ⟨_, stop, text, ofBytes_eq hname (.ofItems bytes) filename policy, rfl,
    leads_ofSupply hs rfl filename policy, hend⟩

end Reader

/-- Over bytes that come one at a time, draining a reader ends cleanly with the text that all of the
bytes are, unless they begin with a character where the mark of UTF-16 should be. Where the bytes
are a part of the mark of UTF-8 and no text at all, it ends cleanly with nothing. -/
theorem clean_end_iff {name : String} {e : Encoding} (hname : Encoding.find name = .ok e)
    (he : e ≠ .undefined) (bytes : List UInt8) (filename : String) (policy : ReadPolicy) :
    ∃ r, Reader.ofBytes (.ofItems bytes) name filename policy = .ok r ∧
      (∀ line cs, r.EndsCleanly line cs ↔
        e.IsText cs bytes ∧ ¬e.LacksMark bytes ∨ e.CutsMark bytes ∧ cs = []) ∧
      (e.CutsMark bytes → ∀ text, ¬e.IsText text bytes) := by
  obtain ⟨supply, stop, text, hr, -, h, hend⟩ :=
    Reader.exists_leads hname he bytes filename policy
  refine ⟨_, hr, fun line cs => ?_, fun hcut => hcut.not_isText⟩
  rw [h.endsCleanly_iff (by simp) line]
  exact hend.eq_none_iff he

theorem clean_end_behind_mark : ∃ r,
    Reader.ofBytes (.ofItems [0xEF, 0xBB, 0xBF, 0x61]) "utf-8-sig" "a" .raise = .ok r ∧
      r.EndsCleanly none ['a'] := by
  have hname : Encoding.find "utf-8-sig" = .ok .utf8Marked := by decide +kernel
  obtain ⟨r, hr, hclean, -⟩ :=
    clean_end_iff hname (by decide) [0xEF, 0xBB, 0xBF, 0x61] "a" .raise
  have ht : Encoding.utf8Marked.IsText ['a'] [0xEF, 0xBB, 0xBF, 0x61] := by
    unfold Encoding.IsText
    decide +kernel
  have hl : ¬Encoding.utf8Marked.LacksMark [0xEF, 0xBB, 0xBF, 0x61] := fun h => by cases h.1
  exact ⟨r, hr, (hclean none ['a']).2 (Or.inl ⟨ht, hl⟩)⟩

/-- The first byte of the mark alone is dropped too, and nothing tells of it. -/
theorem clean_end_on_part_of_mark : ∃ r,
    Reader.ofBytes (.ofItems [0xEF]) "utf-8-sig" "a" .raise = .ok r ∧ r.EndsCleanly none [] ∧
      ∀ text, ¬Encoding.utf8Marked.IsText text [0xEF] := by
  have hname : Encoding.find "utf-8-sig" = .ok .utf8Marked := by decide +kernel
  obtain ⟨supply, stop, text, hr, -, h, hend⟩ :=
    Reader.exists_leads hname (by decide) [0xEF] "a" .raise
  have hcut : Encoding.utf8Marked.CutsMark [0xEF] := ⟨rfl, by decide, by decide, by decide⟩
  refine ⟨_, hr, ?_, hcut.not_isText⟩
  rw [h.endsCleanly_iff (by simp) none]
  exact (hend.eq_none_iff (by decide)).2 (Or.inr ⟨hcut, rfl⟩)

end RpalLexer
