import RpalLexer.Lexer.Origin
import RpalLexer.Proofs.ReadSequence

/-!
# What supplies hand on

The text that a supply hands on, whatever the pieces, and how it ends: it comes to its end or a read
fails. Two supplies that part hand on the same pieces, and one of them fails where the other ends.
Main statements: how streams of text and of bytes part (`Supply.parts_text`, `Supply.parts_bytes`),
and what a reader gives out that takes either ending for the end of its input
(`Reader.Offers.read`).
-/
namespace RpalLexer

namespace Stream

variable {α : Type}

@[simp] theorem closes_read (s : Stream α) : s.read.state.closes = s.closes := by
  unfold read
  split <;> rfl

@[simp] theorem closeFailure_read (s : Stream α) :
    s.read.state.closeFailure = s.closeFailure := by
  unfold read
  split <;> rfl

theorem close_ok {s : Stream α} (h : s.closeFailure = none) : s.close.result = .ok () := by
  rw [close, h]

end Stream

namespace Decoder

/-- Fed the pieces one by one, the decoder makes the characters `cs` of them and does not fail. -/
inductive Decodes : Decoder → List (List UInt8) → List Char → Decoder → Prop
  | nil (d : Decoder) : Decodes d [] [] d
  | cons {d d₁ d' : Decoder} {piece : List UInt8} {pieces : List (List UInt8)} {cs ds : List Char}
      (hf : d.feed false piece = ⟨.ok cs, d₁⟩) (h : Decodes d₁ pieces ds d') :
      Decodes d (piece :: pieces) (cs ++ ds) d'

inductive Breaks (d : Decoder) (f : Failure) : Reading UInt8 → Prop
  | failure : Breaks d f (.failure f)
  | undecodable {piece : List UInt8} (hne : piece ≠ [])
      (hf : (d.feed false piece).result = .error f) : Breaks d f (.piece piece)

end Decoder

namespace Supply

variable {encoding : String} {d d' : Decoder} {s s' : Stream UInt8} {f : Failure}
  {supply supply' next next' : Supply} {cs : List Char}

theorem decodeNext_of_failure (h : s.read = ⟨.error f, s'⟩) :
    decodeNext encoding d s = ⟨.error f, .bytes encoding d s'⟩ := by
  rw [decodeNext]
  split <;> simp_all

theorem decodeNext_of_end (h : s.read = ⟨.ok [], s'⟩) :
    decodeNext encoding d s =
      ⟨(d.feed true []).result, .bytes encoding (d.feed true []).state s'⟩ := by
  rw [decodeNext]
  split <;> simp_all

theorem decodeNext_of_chars {b : UInt8} {bs : List UInt8} {c : Char}
    (h : s.read = ⟨.ok (b :: bs), s'⟩) (hf : d.feed false (b :: bs) = ⟨.ok (c :: cs), d'⟩) :
    decodeNext encoding d s = ⟨.ok (c :: cs), .bytes encoding d' s'⟩ := by
  rw [decodeNext]
  split <;> simp_all

theorem decodeNext_of_no_chars {b : UInt8} {bs : List UInt8}
    (h : s.read = ⟨.ok (b :: bs), s'⟩) (hf : d.feed false (b :: bs) = ⟨.ok [], d'⟩) :
    decodeNext encoding d s = decodeNext encoding d' s' := by
  rw [decodeNext]
  split <;> simp_all

theorem decodeNext_of_undecodable {b : UInt8} {bs : List UInt8}
    (h : s.read = ⟨.ok (b :: bs), s'⟩) (hf : d.feed false (b :: bs) = ⟨.error f, d'⟩) :
    decodeNext encoding d s = ⟨.error f, .bytes encoding d' s'⟩ := by
  rw [decodeNext]
  split <;> simp_all

def Closable (supply : Supply) : Prop := supply.close.result = .ok ()

@[simp] theorem reads_close (supply : Supply) : supply.close.state.reads = supply.reads := by
  cases supply <;> rfl

@[simp] theorem closes_close (supply : Supply) :
    supply.close.state.closes = supply.closes + 1 := by
  cases supply <;> rfl

theorem Closable.close_eq (h : supply.Closable) : supply.close = ⟨.ok (), supply.close.state⟩ :=
  Step.eq_of_result h

theorem closing_decodeNext (encoding : String) (d : Decoder) (s : Stream UInt8) :
    (decodeNext encoding d s).state.closes = s.closes ∧
      (decodeNext encoding d s).state.close.result = s.close.result := by
  -- Every read that is made leaves the closing of the stream as it is.
  have hread {s s' : Stream UInt8} {result : Except Failure (List UInt8)}
      (h : s.read = ⟨result, s'⟩) : s'.closes = s.closes ∧ s'.close.result = s.close.result := by
    have hc : s'.closes = s.closes := by simpa [h] using s.closes_read
    have hf : s'.closeFailure = s.closeFailure := by simpa [h] using s.closeFailure_read
    exact ⟨hc, by rw [Stream.close, Stream.close, hf]⟩
  fun_induction decodeNext encoding d s with
  | case1 d s f s' h => exact hread h
  | case2 d s s' h fed => exact hread h
  | case3 d s b bs s' h d' hf ih =>
    exact ⟨ih.1.trans (hread h).1, ih.2.trans (hread h).2⟩
  | case4 d s b bs s' h c cs d' hf => exact hread h
  | case5 d s b bs s' h f d' hf => exact hread h

theorem closing_next (supply : Supply) :
    supply.next.state.closes = supply.closes ∧
      supply.next.state.close.result = supply.close.result := by
  cases supply with
  | text s => exact ⟨s.closes_read, by simp [Supply.next, close, Stream.close]⟩
  | bytes encoding d s => exact closing_decodeNext encoding d s

theorem Closable.of_next {result : Except Failure (List Char)} (h : supply.Closable)
    (hn : supply.next = ⟨result, next⟩) : next.Closable := by
  have hc := supply.closing_next.2
  rw [hn] at hc
  exact hc.trans h

theorem Closable.of_close (h : supply.Closable) : supply.close.state.Closable := by
  cases supply with
  | text s => exact h
  | bytes encoding d s => exact h

def stopped : Option Failure → Except Failure (List Char)
  | none => .ok []
  | some f => .error f

/-- `supply.Hands stop cs`: the supply hands on `cs` in pieces and then comes to its end, or fails
if `stop` is a failure. -/
inductive Hands (stop : Option Failure) : List Char → Supply → Prop
  | stop {supply : Supply} (h : supply.next.result = stopped stop) : Hands stop [] supply
  | piece {supply next : Supply} {c : Char} {cs ds : List Char}
      (hn : supply.next = ⟨.ok (c :: cs), next⟩) (h : Hands stop ds next) :
      Hands stop (c :: cs ++ ds) supply

/-- Two supplies hand on `cs` in the same pieces and with the same reads; then the first fails with
`f` in a read with which the second comes to its end. -/
inductive Parts (f : Failure) : List Char → Supply → Supply → Prop
  | stop {supply supply' next next' : Supply} (hr : supply'.reads = supply.reads)
      (hn : supply.next = ⟨.error f, next⟩) (hn' : supply'.next = ⟨.ok [], next'⟩)
      (hr' : next'.reads = next.reads) : Parts f [] supply supply'
  | piece {supply supply' next next' : Supply} {c : Char} {cs ds : List Char}
      (hr : supply'.reads = supply.reads) (hn : supply.next = ⟨.ok (c :: cs), next⟩)
      (hn' : supply'.next = ⟨.ok (c :: cs), next'⟩) (h : Parts f ds next next') :
      Parts f (c :: cs ++ ds) supply supply'

theorem Parts.reads_eq (h : Parts f cs supply supply') : supply'.reads = supply.reads := by
  cases h <;> assumption

theorem Parts.fails (h : Parts f cs supply supply') : supply.Hands (some f) cs := by
  induction h with
  | stop hr hn hn' hr' => exact .stop (by rw [hn, stopped])
  | piece hr hn hn' _ ih => exact .piece hn ih

theorem Parts.ends (h : Parts f cs supply supply') : supply'.Hands none cs := by
  induction h with
  | stop hr hn hn' hr' => exact .stop (by rw [hn', stopped])
  | piece hr hn hn' _ ih => exact .piece hn' ih

theorem Parts.of_next (h : Parts f cs next next') (hr : supply'.reads = supply.reads)
    (hn : supply.next = next.next) (hn' : supply'.next = next'.next) :
    Parts f cs supply supply' := by
  cases h with
  | stop _ hs hs' hr' => exact .stop hr (hn.trans hs) (hn'.trans hs') hr'
  | piece _ hs hs' h => exact .piece hr (hn.trans hs) (hn'.trans hs') h

theorem parts_text {pieces : List (List Char)} (hp : [] ∉ pieces) (f : Failure)
    (later : List (Reading Char)) (s : Stream Char) :
    Parts f pieces.flatten
      (.text { s with readings := pieces.map .piece ++ .failure f :: later })
      (.text { s with readings := pieces.map .piece }) := by
  induction pieces generalizing s with
  | nil => exact .stop rfl rfl rfl rfl
  | cons piece pieces ih =>
    rw [List.mem_cons, not_or] at hp
    obtain ⟨hne, hp⟩ := hp
    obtain ⟨c, cs, rfl⟩ := List.exists_cons_of_ne_nil (Ne.symm hne)
    exact .piece rfl rfl rfl (ih hp { s with reads := s.reads + 1 })

theorem exists_next_of_breaks {last : Reading UInt8} (encoding : String) (h : d.Breaks f last)
    (later : List (Reading UInt8)) (s : Stream UInt8) :
    ∃ next, Supply.next (.bytes encoding d { s with readings := last :: later }) =
      ⟨.error f, next⟩ ∧ next.reads = s.reads + 1 := by
  cases h with
  | failure => exact ⟨_, decodeNext_of_failure rfl, rfl⟩
  | @undecodable piece hne hf =>
    obtain ⟨b, bs, rfl⟩ := List.exists_cons_of_ne_nil hne
    exact ⟨_, decodeNext_of_undecodable rfl (Step.eq_of_result hf), rfl⟩

theorem parts_bytes (encoding : String) {pieces : List (List UInt8)} {last : Reading UInt8}
    (hp : [] ∉ pieces) (hd : d.Decodes pieces cs d') (hl : (d'.feed true []).result = .ok [])
    (hb : d'.Breaks f last) (later : List (Reading UInt8)) (s : Stream UInt8) :
    Parts f cs
      (.bytes encoding d { s with readings := pieces.map .piece ++ last :: later })
      (.bytes encoding d { s with readings := pieces.map .piece }) := by
  induction hd generalizing s with
  | nil d =>
    obtain ⟨next, hn, hr⟩ := exists_next_of_breaks encoding hb later s
    have hend : Supply.next (.bytes encoding d { s with readings := [] }) =
        ⟨.ok [], .bytes encoding (d.feed true []).state
          { s with readings := [], reads := s.reads + 1 }⟩ := by
      rw [← hl]
      exact decodeNext_of_end rfl
    exact .stop rfl hn hend hr.symm
  | @cons d d₁ d' piece pieces cs ds hf _ ih =>
    rw [List.mem_cons, not_or] at hp
    obtain ⟨hne, hp⟩ := hp
    obtain ⟨b, bs, rfl⟩ := List.exists_cons_of_ne_nil (Ne.symm hne)
    have hrest := ih hp hl hb { s with reads := s.reads + 1 }
    cases cs with
    | nil =>
      exact hrest.of_next rfl (decodeNext_of_no_chars rfl hf) (decodeNext_of_no_chars rfl hf)
    | cons c cs =>
      exact .piece rfl (decodeNext_of_chars rfl hf) (decodeNext_of_chars rfl hf) hrest

end Supply

namespace Reader

variable {r r' : Reader} {cs : List Char}

/-- The reader has `cs` left to give, and takes whatever comes after that for the end. -/
inductive Offers (r : Reader) (cs : List Char) : Prop
  | opened {stop : Option Failure} {rest : List Char} (hs : r.supply.Hands stop rest)
      (hc : r.supply.Closable)
      (hp : ∀ f, stop = some f → f.isReadError = true ∧ r.policy = .endOfInput)
      (ho : r.isOpen = true) (hcs : cs = r.pending ++ rest)
  | closed (hp : r.pending = []) (ho : r.isOpen = false) (hcs : cs = [])

theorem Offers.close_ok (h : r.Offers cs) : r.close.result = .ok () := by
  cases h with
  | opened hs hc hp ho hcs =>
    rw [close, if_pos ho]
    exact hc
  | closed hp ho hcs => simp [close, ho]

theorem offers_closedOn (r : Reader) (supply : Supply) : (r.closedOn supply).Offers [] :=
  .closed rfl rfl rfl

theorem Offers.note (h : r.Offers cs) (e : Event) : (r.note e).Offers cs := by
  cases h with
  | opened hs hc hp ho hcs => exact .opened hs hc hp ho hcs
  | closed hp ho hcs => exact .closed hp ho hcs

theorem Offers.read_stop {stop : Option Failure} {supply : Supply}
    (h : r.supply.next = ⟨Supply.stopped stop, supply⟩)
    (hc : r.supply.Closable)
    (hp : ∀ f, stop = some f → f.isReadError = true ∧ r.policy = .endOfInput)
    (hpending : r.pending = []) (ho : r.isOpen = true) :
    ∃ e, ∀ line, r.read line = ⟨.ok none, (r.closedOn supply.close.state).note e⟩ := by
  have hclose := (hc.of_next h).close_eq
  cases stop with
  | none => exact ⟨_, fun line => (ReadCase.ended hpending ho h hclose).read_eq⟩
  | some f =>
    obtain ⟨hf, hpolicy⟩ := hp f rfl
    exact ⟨_, fun line => (ReadCase.passedOver hpending ho h hf hclose hpolicy).read_eq⟩

theorem Offers.read (h : r.Offers cs) :
    ∃ r', (∀ line, r.read line = ⟨.ok cs.head?, r'⟩) ∧ r'.Offers cs.tail ∧
      r'.exhausted = cs.isEmpty := by
  cases h with
  | closed hp ho hcs =>
    subst hcs
    exact ⟨r, read_of_closed hp ho, .closed hp ho rfl, exhausted_iff.2 ⟨hp, ho⟩⟩
  | @opened stop rest hs hc hp ho hcs =>
    subst hcs
    cases hpending : r.pending with
    | cons c pending =>
      refine ⟨{ r with pending }, fun line => (ReadCase.waiting hpending).read_eq, ?_, ?_⟩
      · exact .opened hs hc hp ho rfl
      · simp [exhausted, ho]
    | nil =>
      cases hs with
      | stop h =>
        obtain ⟨e, hr⟩ := Offers.read_stop (Step.eq_of_result h) hc hp hpending ho
        exact ⟨_, hr, (offers_closedOn r _).note e, rfl⟩
      | @piece _ next c piece ds hn hs =>
        refine ⟨{ r with supply := next, pending := piece }, ?_, ?_, ?_⟩
        · exact fun line => (ReadCase.piece hpending ho hn).read_eq
        · exact .opened hs (hc.of_next hn) hp ho rfl
        · simp [exhausted, ho]

theorem Offers.quiet (h : r.Offers cs) : r.Quiet := by
  refine quiet_of_invariant (P := fun r => ∃ cs, r.Offers cs) ?_ ⟨cs, h⟩
  rintro r ⟨cs, h⟩
  obtain ⟨r', hr, h', -⟩ := h.read
  exact ⟨h.close_ok, _, r', hr, _, h'⟩

theorem Offers.upcoming_eq (h : r.Offers cs) : r.upcoming = cs := by
  refine upcoming_of_invariant (P := Offers) (fun r cs h => ?_) h
  obtain ⟨r', hr, h', -⟩ := h.read
  exact ⟨r', hr none, h'⟩

theorem filename_close (r : Reader) : r.close.state.filename = r.filename := by
  unfold close
  split <;> rfl

theorem offers_close (r : Reader) : r.close.state.Offers [] := by
  obtain ⟨hp, ho⟩ := exhausted_iff.1 (exhausted_close r)
  exact .closed hp ho rfl

end Reader

namespace Lexer

def ofSupply (supply : Supply) (filename : String) (o : Options) : Lexer :=
  { reader := { supply, filename, policy := o.readErrors }, options := o }

theorem ofByteStream_eq {name : String} {e : Encoding} (hname : Encoding.find name = .ok e)
    (stream : Stream UInt8) (filename : String) (o : Options) :
    ofByteStream stream name filename o =
      .ok (ofSupply (.bytes name (.ofEncoding e) stream) filename o) := by
  simp only [ofByteStream, Reader.ofBytes, hname, ofSupply]

end Lexer
end RpalLexer
