import RpalLexer.Proofs.Session
import RpalLexer.Proofs.SupplyText

/-!
# A read error taken for the end

Two streams hand on the same text with the same reads; then a read fails on the one and the other is
at its end. Under the policy that takes read errors for the end only the records of events tell the
lexers over them apart. Main statement: `readError_as_end`.
-/
namespace RpalLexer

/-- The same events, or one read error in the place of one end of the input. -/
def MaskedLog (filename : String) (f : Failure) (log log' : List Event) : Prop :=
  log' = log ∨ ∃ later earlier, log = later ++ .readError filename f :: earlier ∧
    log' = later ++ .endOfInput filename :: earlier

theorem MaskedLog.cons {filename : String} {f : Failure} {log log' : List Event}
    (h : MaskedLog filename f log log') (e : Event) :
    MaskedLog filename f (e :: log) (e :: log') := by
  rcases h with rfl | ⟨later, earlier, rfl, rfl⟩
  · exact Or.inl rfl
  · exact Or.inr ⟨e :: later, earlier, rfl, rfl⟩

namespace Supply

variable {supply supply' next next' : Supply}

theorem counts_close_of_next {a b : Except Failure (List Char)}
    (hn : supply.next = ⟨a, next⟩) (hn' : supply'.next = ⟨b, next'⟩)
    (hr : next'.reads = next.reads) (hc : supply'.closes = supply.closes) :
    next'.close.state.reads = next.close.state.reads ∧
      next'.close.state.closes = next.close.state.closes := by
  have h : next.closes = supply.closes := by simpa [hn] using supply.closing_next.1
  have h' : next'.closes = supply'.closes := by simpa [hn'] using supply'.closing_next.1
  rw [reads_close, reads_close, closes_close, closes_close, h, h', hr, hc]
  exact ⟨rfl, rfl⟩

end Supply

namespace Reader

variable {f : Failure} {name : String} {r r' : Reader}

structure Masked (f : Failure) (name : String) (r r' : Reader) : Prop where
  filename : r.filename = name
  filename' : r'.filename = name
  pending : r'.pending = r.pending
  isOpen : r'.isOpen = r.isOpen
  reads : r'.supply.reads = r.supply.reads
  closes : r'.supply.closes = r.supply.closes
  log : MaskedLog name f r.log r'.log
  unended : .endOfInput name ∉ r.log
  opened : r.isOpen = true → r.policy = .endOfInput ∧ r.supply.Closable ∧ r'.supply.Closable ∧
    r'.log = r.log ∧ ∃ rest, r.supply.Parts f rest r'.supply

theorem Masked.exhausted (h : Masked f name r r') : r'.exhausted = r.exhausted := by
  rw [Reader.exhausted, Reader.exhausted, h.isOpen, h.pending]

theorem Masked.note {e : Event} (h : Masked f name r r') (he : e ≠ .endOfInput name) :
    Masked f name (r.note e) (r'.note e) :=
  { h with
    log := h.log.cons e
    unended := List.not_mem_cons_of_ne_of_not_mem he.symm h.unended
    opened := fun ho => by
      obtain ⟨hp, hc, hc', hl, hs⟩ := h.opened ho
      exact ⟨hp, hc, hc', congrArg (e :: ·) hl, hs⟩ }

theorem Masked.closedOn (h : Masked f name r r') {supply supply' : Supply}
    (hcounts : supply'.reads = supply.reads ∧ supply'.closes = supply.closes)
    {log log' : List Event} (hlog : MaskedLog name f log log')
    (hend : .endOfInput name ∉ log) :
    Masked f name { r.closedOn supply with log } { r'.closedOn supply' with log := log' } where
  filename := h.filename
  filename' := h.filename'
  pending := rfl
  isOpen := rfl
  reads := hcounts.1
  closes := hcounts.2
  log := hlog
  unended := hend
  opened ho := absurd ho (by simp [Reader.closedOn])

theorem Masked.read_opened (hf : f.isReadError = true) (h : Masked f name r r')
    (hp : r.pending = []) (ho : r.isOpen = true) (line : Option Int) :
    Step.Match (Masked f name) (r.read line) (r'.read line) := by
  obtain ⟨hpolicy, hc, hc', hl, rest, hs⟩ := h.opened ho
  have hp' : r'.pending = [] := h.pending.trans hp
  have ho' : r'.isOpen = true := h.isOpen.trans ho
  cases hs with
  | @stop _ _ next next' _ hn hn' hr =>
    have hread : ReadCase r line _ := .passedOver hp ho hn hf (hc.of_next hn).close_eq hpolicy
    have hread' : ReadCase r' line _ := .ended hp' ho' hn' (hc'.of_next hn').close_eq
    rw [hread.read_eq, hread'.read_eq]
    refine ⟨rfl, h.closedOn (Supply.counts_close_of_next hn hn' hr h.closes) ?_ ?_⟩
    · exact Or.inr ⟨[], r.log, by rw [h.filename]; rfl, by rw [h.filename', ← hl]; rfl⟩
    · exact List.not_mem_cons_of_ne_of_not_mem (by simp) h.unended
  | @piece _ _ next next' c cs ds _ hn hn' hs =>
    have hread : ReadCase r line _ := .piece hp ho hn
    have hread' : ReadCase r' line _ := .piece hp' ho' hn'
    rw [hread.read_eq, hread'.read_eq]
    have hcl := r.supply.closing_next.1
    have hcl' := r'.supply.closing_next.1
    rw [hn] at hcl
    rw [hn'] at hcl'
    exact ⟨rfl, { h with
      pending := rfl
      reads := hs.reads_eq
      closes := hcl'.trans (h.closes.trans hcl.symm)
      opened := fun _ => ⟨hpolicy, hc.of_next hn, hc'.of_next hn', hl, ds, hs⟩ }⟩

theorem Masked.read (hf : f.isReadError = true) (h : Masked f name r r') (line : Option Int) :
    Step.Match (Masked f name) (r.read line) (r'.read line) := by
  cases hp : r.pending with
  | cons c cs =>
    rw [(ReadCase.waiting hp).read_eq, (ReadCase.waiting (h.pending.trans hp)).read_eq]
    exact ⟨rfl, { h with pending := rfl }⟩
  | nil =>
    cases ho : r.isOpen with
    | true => exact h.read_opened hf hp ho line
    | false =>
      rw [read_of_closed hp ho, read_of_closed (h.pending.trans hp) (h.isOpen.trans ho)]
      exact ⟨rfl, h⟩

theorem Masked.close (h : Masked f name r r') : Step.Match (Masked f name) r.close r'.close := by
  cases ho : r.isOpen with
  | true =>
    obtain ⟨-, hc, hc', -, -⟩ := h.opened ho
    simp only [Reader.close, ho, h.isOpen, if_true]
    refine ⟨hc'.trans hc.symm, h.closedOn ⟨?_, ?_⟩ h.log h.unended⟩
    · rw [Supply.reads_close, Supply.reads_close, h.reads]
    · rw [Supply.closes_close, Supply.closes_close, h.closes]
  | false =>
    simp only [Reader.close, ho, h.isOpen, Bool.false_eq_true, if_false]
    exact ⟨rfl, { h with
      pending := rfl
      isOpen := rfl
      opened := by simp }⟩

theorem bisimulation_masked (hf : f.isReadError = true) : Bisimulation (Masked f name) where
  filename h := h.filename'.trans h.filename.symm
  exhausted h := h.exhausted
  read line h := h.read hf line
  close h := h.close
  dropped _ _ h := h.note (by simp)
  discarded _ _ h := h.note (by simp)

end Reader

namespace Lexer

variable {f : Failure} {cs : List Char} {supply supply' : Supply} {filename : String} {o : Options}

/-- Whatever is asked of the two lexers, the replies are the same, and so are afterwards the line,
whether there is more, and the reads and closings of the stream. Only the records differ, once the
second has an end of the input where the first has a read error. -/
def Masks (f : Failure) (s s' : Lexer) : Prop :=
  ∀ requests : List Request,
    let t := ((Session.mk s []).after requests).lexer
    let t' := ((Session.mk s' []).after requests).lexer
    (Session.mk s []).replies requests = (Session.mk s' []).replies requests ∧
      t.line = t'.line ∧ t.hasMore = t'.hasMore ∧
      t.reader.supply.reads = t'.reader.supply.reads ∧
      t.reader.supply.closes = t'.reader.supply.closes ∧
      MaskedLog s.filename f t.reader.log t'.reader.log ∧ .endOfInput s.filename ∉ t.reader.log

theorem masks_of_parts (hs : supply.Parts f cs supply') (hf : f.isReadError = true)
    (ho : o.readErrors = .endOfInput) (hc : supply.Closable) (hc' : supply'.Closable)
    (hcloses : supply'.closes = supply.closes) (filename : String) :
    (ofSupply supply filename o).Masks f (ofSupply supply' filename o) := by
  intro requests
  have hR : Reader.Bisimulation (Reader.Masked f filename) := Reader.bisimulation_masked hf
  have hstart : Reader.Masked f filename (ofSupply supply filename o).reader
      (ofSupply supply' filename o).reader :=
    { filename := rfl
      filename' := rfl
      pending := rfl
      isOpen := rfl
      reads := hs.reads_eq
      closes := hcloses
      log := Or.inl rfl
      unended := List.not_mem_nil
      opened := fun _ => ⟨ho, hc, hc', rfl, cs, hs⟩ }
  have hu : (Session.mk (ofSupply supply filename o) []).Twin (Reader.Masked f filename)
      (Session.mk (ofSupply supply' filename o) []) := ⟨⟨⟨hstart, rfl, rfl⟩, rfl⟩, rfl⟩
  have ha := (hu.after hR requests).lexer.toBeside
  exact ⟨(hu.replies_eq hR requests).symm, ha.line.symm, (ha.hasMore hR).symm,
    ha.reader.reads.symm, ha.reader.closes.symm, ha.reader.log, ha.reader.unended⟩

end Lexer

/-- A stream whose read fails after some text cannot be told from one that ends there, but for the
records. The text may come in any pieces; on a stream of bytes the read itself may fail, or the
bytes may be no text. The last part is about any two supplies that hand on a text with the same
reads. -/
theorem readError_as_end {f : Failure} (hf : f.isReadError = true) {o : Options}
    (ho : o.readErrors = .endOfInput) (filename : String) :
    (∀ (stream : Stream Char) (pieces : List (List Char)) (later : List (Reading Char)),
      stream.closeFailure = none → [] ∉ pieces →
      (Lexer.ofTextStream { stream with readings := pieces.map .piece ++ .failure f :: later }
        filename o).Masks f
        (Lexer.ofTextStream { stream with readings := pieces.map .piece } filename o)) ∧
    (∀ (stream : Stream UInt8) (pieces : List (List UInt8)) (last : Reading UInt8)
      (later : List (Reading UInt8)) (name : String) (e : Encoding) (cs : List Char) (d : Decoder),
      stream.closeFailure = none → [] ∉ pieces → Encoding.find name = .ok e →
      (Decoder.ofEncoding e).Decodes pieces cs d → (d.feed true []).result = .ok [] →
      d.Breaks f last →
      ∃ s s',
        Lexer.ofByteStream { stream with readings := pieces.map .piece ++ last :: later } name
          filename o = .ok s ∧
        Lexer.ofByteStream { stream with readings := pieces.map .piece } name filename o = .ok s' ∧
        s.Masks f s') ∧
    ∀ cs (supply supply' : Supply), supply.Parts f cs supply' → supply.Closable →
      supply'.Closable → supply'.closes = supply.closes →
      (Lexer.ofSupply supply filename o).Masks f (Lexer.ofSupply supply' filename o) := by
  refine ⟨?_, ?_, ?_⟩
  · intro stream pieces later hclose hp
    have hs := Supply.parts_text hp f later stream
    have hc : stream.close.result = .ok () := Stream.close_ok hclose
    exact Lexer.masks_of_parts hs hf ho hc hc rfl filename
  · intro stream pieces last later name e cs d hclose hp hname hd hl hb
    have hs := Supply.parts_bytes name hp hd hl hb later stream
    have hc : stream.close.result = .ok () := Stream.close_ok hclose
    refine ⟨_, _, Lexer.ofByteStream_eq hname _ filename o,
      Lexer.ofByteStream_eq hname _ filename o, ?_⟩
    exact Lexer.masks_of_parts hs hf ho hc hc rfl filename
  · intro cs supply supply' hs hc hc' hcloses
    exact Lexer.masks_of_parts hs hf ho hc hc' hcloses filename

theorem readError_after_slash :
    let f := Failure.system ⟨.unspecified, .bare "gone"⟩
    let o : Options := { readErrors := .endOfInput }
    let failing : Stream Char := { readings := [.piece ['a', '/'], .failure f] }
    let ending : Stream Char := { readings := [.piece ['a', '/']] }
    f.isReadError = true ∧ o.readErrors = .endOfInput ∧
      (Lexer.ofTextStream failing "a.rpal" o).Masks f (Lexer.ofTextStream ending "a.rpal" o) := by
  intro f o failing ending
  have hp : [] ∉ [['a', '/']] := by decide
  have hmasks := (readError_as_end (f := f) rfl (o := o) rfl "a.rpal").1 ending [['a', '/']] []
  exact ⟨rfl, rfl, hmasks rfl hp⟩

end RpalLexer
