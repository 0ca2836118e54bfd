import RpalLexer.Proofs.EncodedText
import RpalLexer.Proofs.Session

/-!
# Ways for a text to arrive

A text may arrive as a string, as a stream of text or of bytes cut apart anywhere, or in a file.
Lexers over them start alike and cannot be told apart afterwards, since all that reads show is the
text. Main statement: `transport_independent`.
-/
namespace RpalLexer

def Stream.ofPieces {α : Type} (pieces : List (List α)) : Stream α :=
  { readings := pieces.map .piece }

theorem Stream.ofItems_eq {α : Type} (items : List α) :
    Stream.ofItems items = Stream.ofPieces (items.map ([·])) := by
  simp [ofItems, ofPieces]

theorem flatten_map_singleton {α : Type} (items : List α) : (items.map ([·])).flatten = items := by
  induction items with
  | nil => rfl
  | cons a items ih => simp [ih]

namespace Reader

variable {r r' : Reader} {cs : List Char}

structure SameText (r r' : Reader) : Prop where
  offers : ∃ cs, r.Offers cs ∧ r'.Offers cs
  exhausted : r'.exhausted = r.exhausted
  filename : r'.filename = r.filename

theorem SameText.read (h : r.SameText r') (line : Option Int) :
    Step.Match SameText (r.read line) (r'.read line) := by
  obtain ⟨cs, hcs, hcs'⟩ := h.offers
  obtain ⟨r₁, hr, h₁, he⟩ := hcs.read
  obtain ⟨r₁', hr', h₁', he'⟩ := hcs'.read
  have hf := filename_read r line
  have hf' := filename_read r' line
  rw [hr] at hf ⊢
  rw [hr'] at hf' ⊢
  exact ⟨rfl, ⟨cs.tail, h₁, h₁'⟩, he'.trans he.symm, hf'.trans (h.filename.trans hf.symm)⟩

theorem SameText.close (h : r.SameText r') : Step.Match SameText r.close r'.close := by
  obtain ⟨cs, hcs, hcs'⟩ := h.offers
  refine ⟨hcs'.close_ok.trans hcs.close_ok.symm, ⟨[], offers_close r, offers_close r'⟩, ?_, ?_⟩
  · rw [exhausted_close, exhausted_close]
  · rw [filename_close, filename_close, h.filename]

theorem SameText.note (h : r.SameText r') (e : Event) : (r.note e).SameText (r'.note e) := by
  obtain ⟨cs, hcs, hcs'⟩ := h.offers
  exact ⟨⟨cs, hcs.note e, hcs'.note e⟩, h.exhausted, h.filename⟩

theorem bisimulation_sameText : Bisimulation SameText where
  filename h := h.filename
  exhausted h := h.exhausted
  read line h := h.read line
  close h := h.close
  dropped _ _ h := h.note _
  discarded _ _ h := h.note _

end Reader

namespace Lexer

variable {s s' : Lexer} {text : List Char} {filename : String} {o : Options}

/-- Whatever is asked of the two lexers, the replies are the same, and so are the line and whether
there is more afterwards. -/
def Indistinguishable (s s' : Lexer) : Prop :=
  ∀ requests : List Request,
    (Session.mk s' []).replies requests = (Session.mk s []).replies requests ∧
    ((Session.mk s' []).after requests).lexer.line =
      ((Session.mk s []).after requests).lexer.line ∧
    ((Session.mk s' []).after requests).lexer.hasMore =
      ((Session.mk s []).after requests).lexer.hasMore

theorem Twin.indistinguishable {R : Reader → Reader → Prop} (hR : Reader.Bisimulation R)
    (h : s.Twin R s') : s.Indistinguishable s' := by
  intro requests
  have hu : (Session.mk s []).Twin R (Session.mk s' []) := ⟨h, rfl⟩
  have ha := (hu.after hR requests).lexer.toBeside
  exact ⟨hu.replies_eq hR requests, ha.line, ha.hasMore hR⟩

structure Starts (s : Lexer) (text : List Char) (filename : String) (o : Options) : Prop where
  offers : s.reader.Offers text
  exhausted : s.reader.exhausted = false
  filename : s.filename = filename
  options : s.options = o
  slot : s.slot = none
  line : s.line = 1

theorem Starts.twin (h : s.Starts text filename o) (h' : s'.Starts text filename o) :
    s.Twin Reader.SameText s' where
  reader := ⟨⟨text, h.offers, h'.offers⟩, h'.exhausted.trans h.exhausted.symm,
    h'.filename.trans h.filename.symm⟩
  slot := h'.slot.trans h.slot.symm
  line := h'.line.trans h.line.symm
  options := h'.options.trans h.options.symm

theorem Starts.indistinguishable (h : s.Starts text filename o) (h' : s'.Starts text filename o) :
    s.Indistinguishable s' :=
  (h.twin h').indistinguishable Reader.bisimulation_sameText

theorem Starts.ahead (h : s.Starts text filename o) : s.ahead = text := by
  rw [Lexer.ahead, h.slot, h.offers.upcoming_eq]
  rfl

theorem Starts.tokens (h : s.Starts text filename o) (skip : Bool) :
    (s.tokensAndClose skip).result = textTokens o filename skip 1 text := by
  have hq : s.Quiet := h.offers.quiet
  rw [result_tokensAndClose skip hq, h.ahead, h.options, h.filename, h.line]

theorem starts_ofSupply {supply : Supply} (hs : supply.Hands none text) (hc : supply.Closable)
    (filename : String) (o : Options) : (ofSupply supply filename o).Starts text filename o where
  offers := .opened hs hc (by simp) rfl rfl
  exhausted := rfl
  filename := rfl
  options := rfl
  slot := rfl
  line := rfl

theorem starts_ofTextStream {pieces : List (List Char)} (hp : [] ∉ pieces) (filename : String)
    (o : Options) : (ofTextStream (.ofPieces pieces) filename o).Starts pieces.flatten filename o :=
  starts_ofSupply (Supply.hands_text hp { readings := [] }) rfl filename o

theorem starts_ofString (text filename : String) (o : Options) :
    (ofString text filename o).Starts text.toList filename o := by
  have hp : [] ∉ text.toList.map ([·]) := by simp
  have h := starts_ofTextStream hp filename o
  rwa [flatten_map_singleton, ← Stream.ofItems_eq] at h

theorem exists_starts_ofByteStream {name : String} {e : Encoding} {pieces : List (List UInt8)}
    (hname : Encoding.find name = .ok e) (hp : [] ∉ pieces) (hw : e.Writes text pieces.flatten)
    (filename : String) (o : Options) :
    ∃ s, ofByteStream (.ofPieces pieces) name filename o = .ok s ∧ s.Starts text filename o :=
  ⟨_, ofByteStream_eq hname _ filename o,
    starts_ofSupply (Supply.hands_bytes hp hw.awaits name { readings := [] }) rfl filename o⟩

theorem exists_starts_ofFile {e : Encoding} {bytes : List UInt8} {files : Files} {path : String}
    (hname : Encoding.find o.encoding = .ok e) (hf : files.contents (shownPath path) = .ok bytes)
    (hw : e.Writes text bytes) :
    ∃ s, (ofFile files path o).result = .ok s ∧ s.Starts text (shownPath path) o := by
  have hp : [] ∉ bytes.map ([·]) := by simp
  rw [← flatten_map_singleton bytes] at hw
  obtain ⟨s, hs, h⟩ := exists_starts_ofByteStream hname hp hw (shownPath path) o
  rw [← Stream.ofItems_eq] at hs
  exact ⟨s, by simp only [ofFile, hname, hf, hs], h⟩

end Lexer

/-- A lexer over the bytes of a text, one over pieces of the text, one over the file that holds the
bytes and the one over the text itself cannot be told apart, and all see the text as it is. -/
theorem transport_independent (text filename : String) (o : Options) {name : String}
    {e : Encoding} {chunks : List (List UInt8)} {pieces : List (List Char)}
    (hname : Encoding.find name = .ok e) (hchunks : [] ∉ chunks)
    (hbytes : e.Writes text.toList chunks.flatten) (hpieces : [] ∉ pieces)
    (htext : pieces.flatten = text.toList) :
    (∃ s, Lexer.ofByteStream (.ofPieces chunks) name filename o = .ok s ∧
      (Lexer.ofString text filename o).Indistinguishable s ∧ s.ahead = text.toList) ∧
    (Lexer.ofString text filename o).Indistinguishable
      (Lexer.ofTextStream (.ofPieces pieces) filename o) ∧
    (Lexer.ofTextStream (.ofPieces pieces) filename o).ahead = text.toList ∧
    ∀ files path, o.encoding = name → Files.contents files (shownPath path) = .ok chunks.flatten →
      (∃ s, (Lexer.ofFile files path o).result = .ok s ∧
        (Lexer.ofString text (shownPath path) o).Indistinguishable s ∧ s.ahead = text.toList) ∧
      ∀ skip, scanFile files path o skip = tokenize text (shownPath path) o skip := by
  have hstring := Lexer.starts_ofString text filename o
  refine ⟨?_, ?_, ?_, ?_⟩
  · obtain ⟨s, hs, h⟩ := Lexer.exists_starts_ofByteStream hname hchunks hbytes filename o
    exact ⟨s, hs, hstring.indistinguishable h, h.ahead⟩
  · have h := Lexer.starts_ofTextStream hpieces filename o
    rw [htext] at h
    exact hstring.indistinguishable h
  · rw [(Lexer.starts_ofTextStream hpieces filename o).ahead, htext]
  · rintro files path rfl hf
    obtain ⟨s, hs, h⟩ := Lexer.exists_starts_ofFile hname hf hbytes
    have hstring := Lexer.starts_ofString text (shownPath path) o
    refine ⟨⟨s, hs, ?_, h.ahead⟩, fun skip => ?_⟩
    · exact hstring.indistinguishable h
    · rw [scanFile, hs, tokenize_eq_textTokens, ← h.tokens skip]

theorem transport_cut_inside_char :
    (∃ s, Lexer.ofByteStream (.ofPieces [[0xC3], [0xA9, 0x0D], [0x0A]]) "utf-8" "a" {} = .ok s ∧
      (Lexer.ofString "é\r\n" "a" {}).Indistinguishable s ∧ s.ahead = ['é', '\r', '\n']) ∧
    scanFile (fun _ => .ok (.file [0xC3, 0xA9, 0x0D, 0x0A])) "a" {} false =
      tokenize "é\r\n" "a" {} false := by
  have hbytes : Encoding.utf8.Writes "é\r\n".toList [[0xC3], [0xA9, 0x0D], [0x0A]].flatten :=
    Encoding.writes_of_encode? (by decide) (by decide +kernel)
  have hname : Encoding.find "utf-8" = .ok .utf8 := by decide +kernel
  have hpieces : [] ∉ [['é', '\r'], ['\n']] := by decide
  obtain ⟨hstream, -, -, hfile⟩ := transport_independent "é\r\n" "a" {} hname (by decide) hbytes
    hpieces (by decide +kernel)
  refine ⟨hstream, ?_⟩
  have hs : shownPath "a" = "a" :=
    shownPath_of_notMem (by decide) (by decide) (by decide)
  have hf := (hfile (fun _ => .ok (.file [0xC3, 0xA9, 0x0D, 0x0A])) "a" rfl ?_).2 false
  · rwa [hs] at hf
  · rw [hs]
    decide +kernel

end RpalLexer
