import RpalLexer.Proofs.DecodeFailures
import RpalLexer.Proofs.PullLoop

/-!
# Faults of files

The bytes of a file can be read and its stream can be closed, so a lexer over a file meets scan
errors only, and one more failure: bytes that are no text under an encoding that says so without a
position. Main statement: `Lexer.ofText_of_pulls`.
-/
namespace RpalLexer

def Failure.IsBadText (f : Failure) : Prop := ∃ message, f = .plain .badText message

inductive Fault.OfText : Fault → Prop
  | scan (e : ScanError) : OfText (.scan e)
  | badText {f : Failure} (h : f.IsBadText) : OfText (.failure f)

namespace Decoder

variable {d : Decoder} {mode : DecoderMode} {before data piece : List UInt8} {final : Bool}
  {f : Failure}

theorem isReadError_of_settle {decoded : Except DecodeFailure Decoded}
    (h : (settle mode before decoded).result = .error f) : f.isReadError = true := by
  cases decoded with
  | ok d => cases h
  | error g =>
    cases h
    rfl

theorem isReadError_of_feedSeekingMark (h : (feedSeekingMark final before data).result = .error f) :
    f.isReadError = true := by
  unfold feedSeekingMark at h
  split at h
  · cases h
  · split at h
    · exact isReadError_of_settle h
    · exact isReadError_of_settle h

theorem feedSeekingOrder_error (h : (feedSeekingOrder final before data).result = .error f) :
    f.isReadError = true ∨ f.IsBadText := by
  unfold feedSeekingOrder at h
  split at h
  · split at h
    · cases h
    · cases h
      exact Or.inl rfl
  · split at h
    · cases h
    · cases h
      exact Or.inr ⟨_, rfl⟩
    · cases h
      exact Or.inl rfl

theorem feed_error (h : (d.feed final piece).result = .error f) :
    f.isReadError = true ∨ f.IsBadText := by
  unfold feed at h
  split at h
  · exact Or.inl (isReadError_of_settle h)
  · exact Or.inl (isReadError_of_feedSeekingMark h)
  · exact feedSeekingOrder_error h
  · cases h
    exact Or.inr ⟨_, rfl⟩

end Decoder

namespace Stream

variable {α : Type} {s s' : Stream α}

def Readable (s : Stream α) : Prop := ∀ f, .failure f ∉ s.readings

theorem readable_ofItems (items : List α) : (ofItems items).Readable := by
  intro f hf
  obtain ⟨a, -, ha⟩ := List.mem_map.1 hf
  cases ha

theorem Readable.read (h : s.Readable) :
    (∃ items, s.read.result = .ok items) ∧ s.read.state.Readable := by
  unfold Stream.read
  split
  · exact ⟨⟨[], rfl⟩, h⟩
  · rename_i items later hr
    exact ⟨⟨items, rfl⟩, fun f hf => h f (by rw [hr]; exact .tail _ hf)⟩
  · rename_i f later hr
    exact absurd (by rw [hr]; exact .head _) (h f)

end Stream

namespace Supply

variable {supply : Supply} {f : Failure}

def Readable : Supply → Prop
  | .text s => s.Readable
  | .bytes _ _ s => s.Readable

theorem readable_decodeNext {encoding : String} {d : Decoder} {s : Stream UInt8}
    (h : s.Readable) : (decodeNext encoding d s).state.Readable ∧
      ∀ f, (decodeNext encoding d s).result = .error f → f.isReadError = true ∨ f.IsBadText := by
  fun_induction decodeNext encoding d s with
  | case1 d s f s' hr =>
    obtain ⟨items, hi⟩ := h.read.1
    rw [hr] at hi
    cases hi
  | case2 d s s' hr fed =>
    have hs := h.read.2
    rw [hr] at hs
    exact ⟨hs, fun f hf => Decoder.feed_error hf⟩
  | case3 d s b bs s' hr d' hf ih =>
    have hs := h.read.2
    rw [hr] at hs
    exact ih hs
  | case4 d s b bs s' hr c cs d' hf =>
    have hs := h.read.2
    rw [hr] at hs
    refine ⟨hs, fun g hg => ?_⟩
    cases hg
  | case5 d s b bs s' hr f d' hf =>
    have hs := h.read.2
    rw [hr] at hs
    refine ⟨hs, fun g hg => ?_⟩
    cases hg
    exact Decoder.feed_error (by rw [hf])

theorem Readable.next (h : supply.Readable) : supply.next.state.Readable ∧
    ∀ f, supply.next.result = .error f → f.isReadError = true ∨ f.IsBadText := by
  cases supply with
  | text s =>
    refine ⟨h.read.2, fun f hf => ?_⟩
    obtain ⟨items, hi⟩ := h.read.1
    cases hf.symm.trans hi
  | bytes encoding d s => exact readable_decodeNext h

theorem Readable.afterReads (h : supply.Readable) (n : Nat) : (supply.afterReads n).Readable := by
  induction n with
  | zero => exact h
  | succ n ih => exact ih.next.1

end Supply

namespace Reader

variable {supply : Supply} {r r' : Reader} {line : Option Int} {e : Fault}

theorem ReadCase.ofText (hc : ReadCase r line ⟨.error e, r'⟩) (h : r.Lifetime supply)
    (hs : supply.Readable) (hclosable : supply.Closable) : e.OfText := by
  have hclosable := h.closable hclosable
  cases hc with
  | endedBadly hp ho hn hc => cases (hclosable.of_next hn).close_eq.symm.trans hc
  | reported hp ho hn hf hc hr => exact .scan _
  | failedBadly hp ho hn hf hc => cases (hclosable.of_next hn).close_eq.symm.trans hc
  | @otherFailure f next hp ho hn hf =>
    obtain ⟨⟨n, hsupply⟩, -⟩ := h.opened ho
    have hnext := ((hs.afterReads n).next).2 f (by rw [← hsupply, hn])
    rw [hf] at hnext
    exact .badText (hnext.resolve_left Bool.false_ne_true)

end Reader

namespace Lexer

variable {s s' : Lexer} {e : Fault} {supply : Supply}

theorem exists_scan_of_answer_error {line : Int} {content : Content}
    (h : (s.answer line content).result = .error e) : ∃ g, e = .scan g := by
  rw [result_answer s line ⟨content, [], []⟩] at h
  cases ho : Segment.outcome s.options s.filename line ⟨content, [], []⟩ with
  | ok t =>
    rw [ho] at h
    cases h
  | error g =>
    rw [ho] at h
    cases h
    exact ⟨g, rfl⟩

theorem ofText_of_peek (h : s.reader.Lifetime supply) (hs : supply.Readable)
    (hc : supply.Closable) (hp : s.peek = ⟨.error e, s'⟩) : e.OfText := by
  cases PeekCase.of_eq hp with
  | fault hslot hr => exact (Reader.ReadCase.of_eq hr).ofText h hs hc

theorem ofText_of_pulls (hs : supply.Readable) (hc : supply.Closable)
    (h : s.reader.Lifetime supply) (he : pulledFault s.pulls = some e) : e.OfText := by
  have hh : (s.harvest false none).fault = some e := by rw [harvest_eq_pulls, he]
  refine harvest_fault (P := fun s => s.reader.Lifetime supply)
    (lifetime_invariant supply).nextToken (fun s e h he => ?_) h none hh
  refine (lifetime_invariant supply).nextToken_error
    (fun s s' e h hp => ofText_of_peek h hs hc hp) (fun s line content e _ ha => ?_) h he
  obtain ⟨g, rfl⟩ := exists_scan_of_answer_error ha
  exact .scan g

end Lexer
end RpalLexer
