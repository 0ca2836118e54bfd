import RpalLexer.Proofs.LongestText
import RpalLexer.Proofs.SupplyText

/-!
# Bytes read one at a time

A reader of bytes that come one at a time gives out each character as soon as its last byte was
read, and every character that stands before undecodable bytes. Main statement: `byte_reads_exact`.
-/
namespace RpalLexer

namespace Stream

variable {α : Type}

def coming (n : Nat) (items : List α) : Stream α := { ofItems items with reads := n }

theorem read_coming_nil (n : Nat) :
    (coming n ([] : List α)).read = ⟨.ok [], coming (n + 1) []⟩ := rfl

theorem read_coming_cons (n : Nat) (a : α) (items : List α) :
    (coming n (a :: items)).read = ⟨.ok [a], coming (n + 1) items⟩ := rfl

end Stream

namespace Codec.Spells

variable {codec : Codec} {c : Char} {b : UInt8} {tail x missing : List UInt8}

theorem decode_whole (h : codec.Spells c b tail) :
    codec.decode false (b :: tail) = .ok ⟨[c], []⟩ := by
  have hnil : codec.decodeFrom false (b :: tail) (0 + 1 + tail.length) [] = .ok ⟨[], []⟩ := by
    rw [decodeFrom]
  have hd := h.decodeFrom_append hnil
  rwa [List.append_nil] at hd

theorem decode_part (h : codec.Spells c b tail) (hb : b :: tail = x ++ missing)
    (hm : missing ≠ []) : codec.decode false x = .ok ⟨[], x⟩ := by
  cases x with
  | nil => rw [decode, decodeFrom]
  | cons b' x =>
    rw [List.cons_append, List.cons.injEq] at hb
    obtain ⟨rfl, rfl⟩ := hb
    exact h.decodeFrom_of_missing hm _ 0

end Codec.Spells

namespace Decoder

variable {mode : DecoderMode} {codec : Codec} {bytes : List UInt8}

/-- As long as no more than these bytes came, the decoder does what the codec says and stays in its
mode. -/
def Follows (mode : DecoderMode) (codec : Codec) (bytes : List UInt8) : Prop :=
  ∀ held final piece, held ++ piece <+: bytes →
    feed ⟨mode, held⟩ final piece = settle mode held (codec.decode final (held ++ piece))

theorem follows_plain (codec : Codec) (bytes : List UInt8) :
    Follows (.plain codec) codec bytes := fun _ _ _ _ => rfl

end Decoder

namespace Supply

variable {name : String} {mode : DecoderMode} {codec : Codec} {c : Char} {b : UInt8}
  {tail held missing rest bytes : List UInt8} {n : Nat}

def between (name : String) (codec : Codec) (n : Nat) (bytes : List UInt8) : Supply :=
  .bytes name ⟨.plain codec, []⟩ (.coming n bytes)

theorem decodeNext_of_missing (h : codec.Spells c b tail) (hb : b :: tail = held ++ missing)
    (hm : missing ≠ []) : decodeNext name ⟨.plain codec, held⟩ (.coming n (missing ++ rest)) =
      ⟨.ok [c], between name codec (n + missing.length) rest⟩ := by
  induction missing generalizing held n with
  | nil => exact absurd rfl hm
  | cons m missing ih =>
    have hread : (Stream.coming n (m :: missing ++ rest)).read =
        ⟨.ok [m], .coming (n + 1) (missing ++ rest)⟩ := rfl
    rw [List.append_cons] at hb
    have hfeed := Decoder.follows_plain codec (b :: tail) held false [m] ⟨missing, hb.symm⟩
    by_cases hne : missing = []
    -- This is the last byte of the character.
    · subst hne
      rw [List.append_nil] at hb
      rw [← hb, h.decode_whole] at hfeed
      exact decodeNext_of_chars hread hfeed
    · rw [h.decode_part hb hne] at hfeed
      rw [decodeNext_of_no_chars hread hfeed, ih hb hne, List.length_cons, Nat.add_assoc,
        Nat.add_comm 1]

theorem next_between (h : codec.Spells c b tail) (n : Nat) (rest : List UInt8) :
    (between name codec n (b :: tail ++ rest)).next =
      ⟨.ok [c], between name codec (n + (b :: tail).length) rest⟩ :=
  decodeNext_of_missing h (List.nil_append (b :: tail)).symm (List.cons_ne_nil b tail)

theorem result_decodeNext_of_stuck (name : String) (ht : Decoder.Follows mode codec bytes)
    (hs : ∀ x, x <+: bytes → codec.Stuck x) (hb : bytes = held ++ rest) :
    (decodeNext name ⟨mode, held⟩ (.coming n rest)).result = .ok [] ∧ bytes = [] ∨
      ∃ f, (decodeNext name ⟨mode, held⟩ (.coming n rest)).result = .error (.undecodable f) ∧
        bytes ≠ [] := by
  induction rest generalizing held n with
  | nil =>
    rw [List.append_nil] at hb
    subst hb
    rw [decodeNext_of_end (Stream.read_coming_nil n),
      ht bytes true [] ⟨[], by simp⟩, List.append_nil, Codec.decode]
    by_cases hne : bytes = []
    · subst hne
      rw [Codec.decodeFrom]
      exact Or.inl ⟨rfl, rfl⟩
    · obtain ⟨f, hf⟩ := (hs bytes (List.prefix_refl bytes)).decodeFrom_final hne bytes 0
      rw [hf]
      exact Or.inr ⟨f, rfl, hne⟩
  | cons b rest ih =>
    have hbytes : bytes = held ++ [b] ++ rest := by
      rw [hb, List.append_assoc]
      rfl
    have hp : held ++ [b] <+: bytes := ⟨rest, hbytes.symm⟩
    have hread := Stream.read_coming_cons n b rest
    have hfeed := ht held false [b] hp
    rcases (hs _ hp).decodeFrom_cases (held ++ [b]) 0 with hd | ⟨f, hd⟩
    · rw [Codec.decode, hd] at hfeed
      rw [decodeNext_of_no_chars hread hfeed]
      exact ih hbytes
    · rw [Codec.decode, hd] at hfeed
      rw [decodeNext_of_undecodable hread hfeed]
      exact Or.inr ⟨f, rfl, by rw [hb]; simp⟩

theorem result_next_between_of_stuck (name : String) {e : Encoding} (h : e.ReadBy codec)
    (hs : codec.Stuck bytes) (n : Nat) :
    (between name codec n bytes).next.result = .ok [] ∧ bytes = [] ∨
      ∃ f, (between name codec n bytes).next.result = .error (.undecodable f) ∧ bytes ≠ [] :=
  result_decodeNext_of_stuck name (Decoder.follows_plain codec bytes)
    (fun _ hp => h.stuck_front hs hp) (List.nil_append bytes).symm

theorem closable_between (name : String) (codec : Codec) (n : Nat) (bytes : List UInt8) :
    (between name codec n bytes).Closable := rfl

end Supply

namespace Encoding

def unmarked : List Encoding := [.utf8, .ascii, .latin1, .utf16 .little, .utf16 .big]

theorem exists_readBy {e : Encoding} (he : e ∈ unmarked) :
    ∃ codec, e.ReadBy codec ∧ Decoder.ofEncoding e = ⟨.plain codec, []⟩ := by
  simp only [unmarked, List.mem_cons, List.not_mem_nil, or_false] at he
  rcases he with rfl | rfl | rfl | rfl | rfl
  · exact ⟨_, readBy_utf8, rfl⟩
  · exact ⟨_, readBy_ascii, rfl⟩
  · exact ⟨_, readBy_latin1, rfl⟩
  · exact ⟨_, readBy_utf16 .little, rfl⟩
  · exact ⟨_, readBy_utf16 .big, rfl⟩

theorem exists_encodeChars?_of_append {e : Encoding} {text text' : List Char}
    {bytes : List UInt8} (h : e.encodeChars? (text ++ text') = some bytes) :
    ∃ x y, e.encodeChars? text = some x ∧ e.encodeChars? text' = some y ∧ bytes = x ++ y := by
  induction text generalizing bytes with
  | nil => exact ⟨[], bytes, rfl, h, rfl⟩
  | cons c cs ih =>
    rw [List.cons_append, encodeChars?] at h
    split at h
    · rename_i b bs hc hcs
      obtain ⟨x, y, hx, hy, rfl⟩ := ih hcs
      cases h
      refine ⟨b ++ x, y, ?_, hy, (List.append_assoc b x y).symm⟩
      simp only [encodeChars?, hc, hx]
    · cases h

end Encoding

namespace Reader

variable {name filename : String} {policy : ReadPolicy} {codec : Codec} {e : Encoding} {c : Char}
  {cs : List Char} {b : UInt8} {tail bytes rest : List UInt8} {n : Nat} {line : Option Int}

def between (name filename : String) (policy : ReadPolicy) (codec : Codec) (n : Nat)
    (bytes : List UInt8) : Reader :=
  { supply := .between name codec n bytes, filename, policy }

theorem read_between (h : codec.Spells c b tail) (n : Nat) (rest : List UInt8)
    (line : Option Int) :
    (between name filename policy codec n (b :: tail ++ rest)).read line = ⟨.ok (some c),
      between name filename policy codec (n + (b :: tail).length) rest⟩ :=
  (ReadCase.piece rfl rfl (Supply.next_between h n rest)).read_eq

theorem after_between (h : codec.Encodes cs bytes) (n : Nat) (rest : List UInt8) :
    after cs.length (between name filename policy codec n (bytes ++ rest)) =
      between name filename policy codec (n + bytes.length) rest := by
  induction h generalizing n with
  | nil => rfl
  | @cons c cs b tail bytes hc _ ih =>
    rw [List.append_assoc, List.length_cons, after, read_between hc, ih, List.length_append,
      Nat.add_assoc]

/-- What a read is like that sees the end of the input or of what can be decoded. -/
def LastRead (filename : String) (policy : ReadPolicy) (line : Option Int) (left : List UInt8)
    (step : Step Fault Reader (Option Char)) : Prop :=
  step.state.exhausted = true ∧ step.state.supply.closes = 1 ∧
    if left = [] then step.result = .ok none ∧ step.state.log = [.endOfInput filename]
    else ∃ f, match policy with
      | .raise => step.result = .error (.scan (.unreadable filename (.undecodable f) line)) ∧
        step.state.log = []
      | .endOfInput =>
        step.result = .ok none ∧ step.state.log = [.readError filename (.undecodable f)]

theorem lastRead_between (h : e.ReadBy codec) (hs : codec.Stuck rest) (n : Nat)
    (line : Option Int) : LastRead filename policy line rest
      ((between name filename policy codec n rest).read line) := by
  have hclosing := (Supply.between name codec n rest).closing_next
  rcases Supply.result_next_between_of_stuck name h hs n with ⟨hr, rfl⟩ | ⟨f, hr, hne⟩
  · have hn := Step.eq_of_result hr
    have hc := ((Supply.closable_between name codec n []).of_next hn).close_eq
    have hread : (between name filename policy codec n []).read line = _ :=
      (ReadCase.ended rfl rfl hn hc).read_eq
    rw [hread]
    refine ⟨rfl, ?_, ?_⟩
    · exact (Supply.closes_close _).trans (congrArg (· + 1) hclosing.1)
    · exact ⟨rfl, rfl⟩
  · have hn := Step.eq_of_result hr
    have hc := ((Supply.closable_between name codec n rest).of_next hn).close_eq
    have hcloses := (Supply.closes_close _).trans (congrArg (· + 1) hclosing.1)
    cases policy with
    | raise =>
      have hread : (between name filename .raise codec n rest).read line = _ :=
        (ReadCase.reported rfl rfl hn rfl hc rfl).read_eq
      rw [hread]
      refine ⟨rfl, hcloses, ?_⟩
      rw [if_neg hne]
      exact ⟨f, rfl, rfl⟩
    | endOfInput =>
      have hread : (between name filename .endOfInput codec n rest).read line = _ :=
        (ReadCase.passedOver rfl rfl hn rfl hc rfl).read_eq
      rw [hread]
      refine ⟨rfl, hcloses, ?_⟩
      rw [if_neg hne]
      exact ⟨f, rfl, rfl⟩

theorem ofBytes_eq {e : Encoding} (hname : Encoding.find name = .ok e) (stream : Stream UInt8)
    (filename : String) (policy : ReadPolicy) : ofBytes stream name filename policy =
      .ok { supply := .bytes name (.ofEncoding e) stream, filename, policy } := by
  simp only [ofBytes, hname]

end Reader

/-- A reader of bytes that come one at a time gives out the text that is the longest front of them,
each character after the read of its last byte. The read after that is the end of the input if the
text is all there was, otherwise it is a failure that decoding the bytes leads to; the stream is
closed then. -/
theorem byte_reads_exact {name : String} {e : Encoding} (hname : Encoding.find name = .ok e)
    (he : e ∈ Encoding.unmarked) (bytes : List UInt8) (filename : String) (policy : ReadPolicy) :
    ∃ r text valid left,
      Reader.ofBytes (.ofItems bytes) name filename policy = .ok r ∧
      bytes = valid ++ left ∧ e.encodeChars? text = some valid ∧
      (∀ text' valid', e.encodeChars? text' = some valid' → valid' <+: bytes → valid' <+: valid) ∧
      (∀ front c back, text = front ++ c :: back →
        ∃ read, e.encodeChars? (front ++ [c]) = some read ∧ ∀ line,
          let step := (r.after front.length).read line
          step.result = .ok (some c) ∧ step.state.supply.reads = read.length ∧
            step.state.exhausted = false) ∧
      ∀ line, Reader.LastRead filename policy line left ((r.after text.length).read line) := by
  obtain ⟨codec, h, hd⟩ := Encoding.exists_readBy he
  obtain ⟨text, valid, left, rfl, ht, hs⟩ := h.exists_split bytes
  have hstart := Reader.ofBytes_eq hname (.ofItems (valid ++ left)) filename policy
  rw [hd] at hstart
  refine ⟨.between name filename policy codec 0 (valid ++ left), text, valid, left, hstart, rfl, ht,
    fun text' valid' ht' hp => h.prefix_of_split ht hs ht' hp, fun front c back hsplit => ?_,
    fun line => ?_⟩
  · rw [hsplit, List.append_cons] at ht
    obtain ⟨read, y, hread, -, rfl⟩ := Encoding.exists_encodeChars?_of_append ht
    refine ⟨read, hread, fun line => ?_⟩
    obtain ⟨x, z, hx, hz, rfl⟩ := Encoding.exists_encodeChars?_of_append hread
    obtain ⟨b, tail, rfl, hsp⟩ := h.exists_spells hz
    have hafter : Reader.after front.length
        (.between name filename policy codec 0 (x ++ (b :: tail ++ (y ++ left)))) = _ :=
      Reader.after_between (h.encodes hx) 0 (b :: tail ++ (y ++ left))
    have hbytes : x ++ (b :: tail) ++ y ++ left = x ++ (b :: tail ++ (y ++ left)) := by simp
    rw [hbytes, hafter, Reader.read_between hsp]
    refine ⟨rfl, ?_, rfl⟩
    rw [List.length_append]
    exact congrArg (· + (b :: tail).length) (Nat.zero_add x.length)
  · rw [Reader.after_between (h.encodes ht)]
    exact Reader.lastRead_between h hs _ line

theorem byte_reads_of_cut_off_char : ∃ r text valid left,
    Reader.ofBytes (.ofItems [0x61, 0xC3]) "utf-8" "a" .raise = .ok r ∧
    [0x61, 0xC3] = valid ++ left ∧ Encoding.utf8.encodeChars? text = some valid ∧
    [0x61] <+: valid ∧
    ∀ line, Reader.LastRead "a" .raise line left ((r.after text.length).read line) := by
  have hname : Encoding.find "utf-8" = .ok .utf8 := by decide +kernel
  have he : Encoding.utf8 ∈ Encoding.unmarked := by decide
  obtain ⟨r, text, valid, left, hr, hb, ht, hlongest, -, hlast⟩ :=
    byte_reads_exact hname he [0x61, 0xC3] "a" .raise
  have ha : Encoding.utf8.encodeChars? ['a'] = some [0x61] := by decide +kernel
  exact ⟨r, text, valid, left, hr, hb, ht, hlongest _ _ ha (by decide), hlast⟩

end RpalLexer
