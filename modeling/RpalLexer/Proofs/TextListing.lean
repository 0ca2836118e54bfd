import Mathlib
import RpalLexer.Proofs.CallInvariant
import RpalLexer.Proofs.ClosingQuote
import RpalLexer.Proofs.TokenShape

/-!
# Text listings

A listing shows the texts of tokens as they are, so a text may hold what looks like the end of its
line and like further lines. The kinds of tokens keep a listing readable all the same: the end of a
literal's text is its first closing quote, that of a comment's the last quote of the line, and other
texts hold no quote. Main statement: `listing_uniquely_decodable`.
-/
namespace RpalLexer

def listing (ts : List Token) : String := String.join (ts.map fun t => t.listed ++ "\n")

theorem listing_cons (t : Token) (ts : List Token) :
    listing (t :: ts) = t.listed ++ "\n" ++ listing ts := by
  rw [listing, List.map_cons, String.join_cons, listing]

section Splitting

variable {α : Type} [DecidableEq α] {x : α} {a b r r' : List α}

theorem append_cons_inj (ha : x ∉ a) (hb : x ∉ b) (h : a ++ x :: r = b ++ x :: r') :
    a = b ∧ r = r' := by
  have htake {c s : List α} (hc : x ∉ c) : (c ++ x :: s).takeWhile (· != x) = c := by
    rw [List.takeWhile_append_of_pos fun y hy => by simpa using ne_of_mem_of_not_mem hy hc]
    simp
  have he : a = b := by rw [← htake (s := r) ha, h, htake hb]
  subst he
  exact ⟨rfl, (List.cons.inj (List.append_cancel_left h)).2⟩

theorem append_cons_inj_last (hr : x ∉ r) (hr' : x ∉ r') (h : a ++ x :: r = b ++ x :: r') :
    a = b ∧ r = r' := by
  have hrev : r.reverse ++ x :: a.reverse = r'.reverse ++ x :: b.reverse := by
    simpa using congrArg List.reverse h
  obtain ⟨her, hea⟩ := append_cons_inj (by simpa using hr) (by simpa using hr') hrev
  exact ⟨List.reverse_inj.1 hea, List.reverse_inj.1 her⟩

end Splitting

def lineTail (line : Int) : List Char := ", line=".toList ++ (toString line).toList ++ [']']

theorem lineTail_injective {m n : Int} (h : lineTail m = lineTail n) : m = n := by
  have hs : (toString m).toList = (toString n).toList :=
    List.append_cancel_left (List.append_cancel_right h)
  exact Int.repr_injective (String.toList_inj.1 hs)

theorem mem_toString {n : Int} {c : Char} (h : c ∈ (toString n).toList) :
    c = '-' ∨ c.isDigit = true := by
  have hdigit {m : Nat} (hm : c ∈ m.repr.toList) : c.isDigit = true := by
    rw [Nat.repr_eq_ofList_toDigits, String.toList_ofList] at hm
    exact Nat.isDigit_of_mem_toDigits (by decide) (by decide) hm
  have hr : toString n = n.repr := rfl
  rw [hr, Int.repr_eq_if] at h
  split at h
  · exact Or.inr (hdigit h)
  · rw [String.toList_append, List.mem_append] at h
    rcases h with hm | hn
    · left
      simpa using hm
    · exact Or.inr (hdigit hn)

theorem not_mem_lineTail {c : Char} (hm : c ≠ '-') (hd : c.isDigit = false)
    (hf : c ∉ ", line=".toList) (hb : c ≠ ']') (line : Int) : c ∉ lineTail line := by
  intro h
  rcases List.mem_append.1 h with h | h
  · rcases List.mem_append.1 h with h | h
    · exact hf h
    · rcases mem_toString h with he | he
      · exact hm he
      · rw [hd] at he
        cases he
  · exact hb (List.mem_singleton.1 h)

theorem quoteMark_notMem_lineTail (line : Int) : quoteMark ∉ lineTail line :=
  not_mem_lineTail (by decide) (by decide) (by decide) (by decide) line

theorem newline_notMem_lineTail (line : Int) : '\n' ∉ lineTail line :=
  not_mem_lineTail (by decide) (by decide) (by decide) (by decide) line

namespace Kind

variable {kind : Kind} {text : List Char}

theorem name_injective {k k' : Kind} (h : k.name = k'.name) : k = k' := by
  have hf := find_name k
  rw [h, find_name k'] at hf
  exact (Except.ok.inj hf).symm

theorem comma_notMem_name (k : Kind) : ',' ∉ k.name.toList := by cases k <;> decide

theorem quoteMark_notMem_of_forall {p : Char → Bool} (h : ∀ d ∈ text, p d = true)
    (hp : p quoteMark = false) : quoteMark ∉ text := by
  intro hm
  rw [h quoteMark hm] at hp
  cases hp

theorem Admits.quoteMark_notMem (h : kind.Admits text) (hs : kind ≠ .string)
    (hc : ¬(kind = .delete ∧ Segment.IsComment text)) : quoteMark ∉ text := by
  cases kind with
  | identifier =>
    obtain ⟨c, cs, rfl, hl, hall⟩ := h
    rw [List.mem_cons, not_or]
    refine ⟨?_, quoteMark_notMem_of_forall hall (by decide)⟩
    rintro rfl
    exact absurd hl (by decide)
  | integer => exact quoteMark_notMem_of_forall h.2 (by decide)
  | operator => exact quoteMark_notMem_of_forall h.2.1 (by decide)
  | delete =>
    rcases h with ⟨-, hall⟩ | ⟨hi, -⟩
    · exact quoteMark_notMem_of_forall hall (by decide)
    · exact absurd ⟨rfl, hi⟩ hc
  | string => exact absurd rfl hs
  | leftParen | rightParen | semicolon | comma =>
    cases h
    decide
  | reserved => exact absurd h id

theorem Admits.newline_notMem (h : Kind.delete.Admits text) (hc : Segment.IsComment text) :
    '\n' ∉ text := by
  rcases h with ⟨-, hall⟩ | ⟨-, hn⟩
  · obtain ⟨cs, rfl⟩ := hc
    have hs := hall commentMark (.head _)
    exact absurd hs (by decide)
  · exact hn

end Kind

open Segment (IsComment)

section Lines

variable {kind : Kind} {a b r r' : List Char} {m n : Int}

theorem lineTail_append_inj (h : lineTail m ++ '\n' :: r = lineTail n ++ '\n' :: r') :
    m = n ∧ r = r' := by
  obtain ⟨ht, hr⟩ := append_cons_inj (newline_notMem_lineTail m) (newline_notMem_lineTail n) h
  exact ⟨lineTail_injective ht, hr⟩

theorem comment_line_inj (ha : '\n' ∉ a) (hb : '\n' ∉ b)
    (h : a ++ quoteMark :: (lineTail m ++ '\n' :: r) =
      b ++ quoteMark :: (lineTail n ++ '\n' :: r')) : a = b ∧ m = n ∧ r = r' := by
  have hline {c : List Char} {k : Int} (hc : '\n' ∉ c) :
      '\n' ∉ c ++ quoteMark :: lineTail k := by
    rw [List.mem_append, List.mem_cons, not_or, not_or]
    exact ⟨hc, by decide, newline_notMem_lineTail k⟩
  have hfirst : (a ++ quoteMark :: lineTail m) ++ '\n' :: r =
      (b ++ quoteMark :: lineTail n) ++ '\n' :: r' := by simpa using h
  obtain ⟨hl, hr⟩ := append_cons_inj (hline ha) (hline hb) hfirst
  obtain ⟨hab, ht⟩ :=
    append_cons_inj_last (quoteMark_notMem_lineTail m) (quoteMark_notMem_lineTail n) hl
  exact ⟨hab, lineTail_injective ht, hr⟩

theorem isComment_of_append_eq (ha : Kind.delete.Admits a) (hb : IsComment b)
    (h : a ++ r = b ++ r') : IsComment a := by
  rcases ha with ⟨hne, hall⟩ | ⟨hi, -⟩
  · obtain ⟨c, cs, rfl⟩ := List.exists_cons_of_ne_nil hne
    obtain ⟨ds, rfl⟩ := hb
    have hc : c = commentMark := (List.cons.inj h).1
    subst hc
    exact absurd (hall commentMark (.head cs)) (by decide)
  · exact hi

theorem text_line_inj (ha : kind.Admits a) (hb : kind.Admits b)
    (h : a ++ quoteMark :: (lineTail m ++ '\n' :: r) =
      b ++ quoteMark :: (lineTail n ++ '\n' :: r')) : a = b ∧ m = n ∧ r = r' := by
  by_cases hs : kind = .string
  -- A literal's text ends at the first quote that closes it.
  · subst hs
    have hfirst := Segment.StringBody.closesFirst ha (lineTail m ++ '\n' :: r)
    rw [h] at hfirst
    have he : a = b := hfirst.unique (Segment.StringBody.closesFirst hb _)
    subst he
    exact ⟨rfl, lineTail_append_inj (List.cons.inj (List.append_cancel_left h)).2⟩
  -- A comment has no newline, so its line is known first and ends in the last quote.
  · by_cases hc : kind = .delete ∧ (IsComment a ∨ IsComment b)
    · obtain ⟨rfl, hab⟩ := hc
      have hca : IsComment a := hab.elim id fun hcb => isComment_of_append_eq ha hcb h
      have hcb : IsComment b := hab.elim (fun hca => isComment_of_append_eq hb hca h.symm) id
      exact comment_line_inj (Kind.Admits.newline_notMem ha hca)
        (Kind.Admits.newline_notMem hb hcb) h
    · have hna := ha.quoteMark_notMem hs fun hi => hc ⟨hi.1, Or.inl hi.2⟩
      have hnb := hb.quoteMark_notMem hs fun hi => hc ⟨hi.1, Or.inr hi.2⟩
      obtain ⟨hab, ht⟩ := append_cons_inj hna hnb h
      exact ⟨hab, lineTail_append_inj ht⟩

end Lines

namespace Token

variable {t u : Token} {r r' : List Char}

def shown (t : Token) : Kind × String × Int := (t.kind, t.text, t.line)

/-- The tokens that calls give, on any input and under any options. -/
def Scanned (t : Token) : Prop := ∃ s : Lexer, s.nextToken.result = .ok (some t)

theorem toList_listed_append (t : Token) (r : List Char) : t.listed.toList ++ '\n' :: r =
    "Token[type=".toList ++ (t.kind.name.toList ++ ',' :: (" value='".toList ++
      (t.text.toList ++ quoteMark :: (lineTail t.line ++ '\n' :: r)))) := by
  have hv : ", value='".toList = ',' :: " value='".toList := by decide
  have hl : "', line=".toList = quoteMark :: ", line=".toList := by decide
  have hb : "]".toList = [']'] := by decide
  unfold listed lineTail
  simp only [String.toList_append, hv, hl, hb, List.append_assoc, List.cons_append, List.nil_append]

theorem WellFormed.listed_inj (ht : t.WellFormed) (hu : u.WellFormed)
    (h : t.listed.toList ++ '\n' :: r = u.listed.toList ++ '\n' :: r') :
    t.shown = u.shown ∧ r = r' := by
  rw [toList_listed_append, toList_listed_append] at h
  obtain ⟨hname, hrest⟩ := append_cons_inj (Kind.comma_notMem_name t.kind)
    (Kind.comma_notMem_name u.kind) (List.append_cancel_left h)
  have hk : t.kind = u.kind := Kind.name_injective (String.toList_inj.1 hname)
  rw [WellFormed, ← hk] at hu
  obtain ⟨htext, hline, hr⟩ := text_line_inj ht hu (List.append_cancel_left hrest)
  exact ⟨by rw [shown, shown, hk, String.toList_inj.1 htext, hline], hr⟩

end Token

namespace Lexer

variable {s : Lexer} {t : Token}

theorem content_of_answer {line : Int} {content : Content}
    (h : (s.answer line content).result = .ok (some t)) :
    content = .lexeme t.kind t.text.toList := by
  cases content with
  | lexeme kind text =>
    cases h
    rw [token, String.toList_ofList]
  | unknown c =>
    rw [answer, unknownChar] at h
    split at h
    · cases h
    · cases h
  | cutOff body =>
    rw [answer, cutOffString] at h
    split at h
    · cases h
    · cases h

theorem exists_cut_of_nextToken (h : s.nextToken.result = .ok (some t)) :
    ∃ source rest, Segment.Cut (.lexeme t.kind t.text.toList) source rest := by
  obtain ⟨source, hc⟩ := nextToken_cases s
  generalize s.nextToken = step at hc h
  cases hc with
  | ended hp => cases h
  | unread hp => cases h
  | whole hcut ho ht =>
    refine ⟨source, [], ?_⟩
    rw [← content_of_answer h]
    exact hcut []
  | @delimited _ _ next _ _ hcut ho ht hp =>
    refine ⟨source, next.toList, ?_⟩
    rw [← content_of_answer h]
    exact hcut next.toList (by cases next <;> rfl)
  | broken hcut ho ht hp => cases h

theorem scanned_of_nextKept {skip : Bool} (h : (s.nextKept skip).result = .ok (some t)) :
    t.Scanned := by
  fun_induction nextKept skip s with
  | case1 s hm e s' hn => cases h
  | case2 s hm s' hn ih => exact ih h
  | case3 s hm u s' hn hd ih => exact ih h
  | case4 s hm u s' hn hd =>
    cases h
    exact ⟨s, by rw [hn]⟩
  | case5 s hm => cases h

theorem scanned_of_mem_harvest {skip : Bool} {limit : Option Nat}
    (h : t ∈ (s.harvest skip limit).tokens) : t.Scanned := by
  fun_induction harvest skip limit s with
  | case1 s => cases h
  | case2 limit s hl e s' hk => cases h
  | case3 limit s hl s' hk => cases h
  | case4 limit s hl u s' hk rest ih =>
    rcases List.mem_cons.1 h with rfl | hr
    · exact scanned_of_nextKept (by rw [hk])
    · exact ih hr

end Lexer

theorem Token.Scanned.wellFormed {t : Token} (h : t.Scanned) : t.WellFormed := by
  obtain ⟨s, hs⟩ := h
  obtain ⟨source, rest, hcut⟩ := Lexer.exists_cut_of_nextToken hs
  exact (Token.wellFormed_of_cut hcut).1

theorem toList_listing_cons (t : Token) (ts : List Token) :
    (listing (t :: ts)).toList = t.listed.toList ++ '\n' :: (listing ts).toList := by
  rw [listing_cons, String.toList_append, String.toList_append, List.append_assoc]
  rfl

theorem listing_ne_nil (t : Token) (ts : List Token) : listing (t :: ts) ≠ listing [] := by
  intro h
  have hl := congrArg String.toList h
  rw [toList_listing_cons] at hl
  exact absurd hl (by simp [listing])

/-- Tokens of any texts, under any options, that are listed alike are alike in kind, text and
line, whatever their texts imitate. -/
theorem listing_uniquely_decodable {l₁ l₂ : List Token} (h₁ : ∀ t ∈ l₁, t.Scanned)
    (h₂ : ∀ t ∈ l₂, t.Scanned) (h : listing l₁ = listing l₂) :
    l₁.map Token.shown = l₂.map Token.shown := by
  induction l₁ generalizing l₂ with
  | nil =>
    cases l₂ with
    | nil => rfl
    | cons u l₂ => exact absurd h.symm (listing_ne_nil u l₂)
  | cons t l₁ ih =>
    cases l₂ with
    | nil => exact absurd h (listing_ne_nil t l₁)
    | cons u l₂ =>
      rw [List.forall_mem_cons] at h₁ h₂
      have hl := congrArg String.toList h
      rw [toList_listing_cons, toList_listing_cons] at hl
      obtain ⟨hshown, hrest⟩ := h₁.1.wellFormed.listed_inj h₂.1.wellFormed hl
      rw [List.map_cons, List.map_cons, hshown, ih h₁.2 h₂.2 (String.toList_inj.1 hrest)]

def imitations (filename : String) : List Token :=
  let text := "'a\\', line=1]\nToken[type=INTEGER, value=\\'7'// ', line=1]"
  ((Lexer.ofString text filename {}).harvest false none).tokens

theorem listing_uniquely_decodable_of_imitations :
    imitations "a.rpal" ≠ imitations "b.rpal" ∧
      listing (imitations "a.rpal") = listing (imitations "b.rpal") ∧
      (imitations "a.rpal").map Token.shown = (imitations "b.rpal").map Token.shown := by
  have he : listing (imitations "a.rpal") = listing (imitations "b.rpal") := by decide +kernel
  exact ⟨by decide +kernel, he, listing_uniquely_decodable
    (fun _ => Lexer.scanned_of_mem_harvest) (fun _ => Lexer.scanned_of_mem_harvest) he⟩

end RpalLexer
