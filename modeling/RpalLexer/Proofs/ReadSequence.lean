import RpalLexer.Reader
import Mathlib.Data.List.TakeWhile

/-!
# Sequences of reads

What successive reads of a reader give out, whatever its stream does. The line that a read is told
and the record of events have no part in that. Main statement: how a reader got to where it is
determines what it gave out (`Reader.Delivers.unique`).
-/
namespace RpalLexer
namespace Reader

variable {r r' : Reader} {cs cs' : List Char}

def Alike (r r' : Reader) : Prop := ∃ log, r' = { r with log }

theorem Alike.refl (r : Reader) : r.Alike r := ⟨r.log, rfl⟩

theorem Alike.symm (h : r.Alike r') : r'.Alike r := by
  obtain ⟨log, rfl⟩ := h
  exact ⟨r.log, rfl⟩

theorem Alike.trans {r'' : Reader} (h : r.Alike r') (h' : r'.Alike r'') : r.Alike r'' := by
  obtain ⟨log, rfl⟩ := h
  obtain ⟨log', rfl⟩ := h'
  exact ⟨log', rfl⟩

theorem alike_note (r : Reader) (e : Event) : r.Alike (r.note e) := ⟨e :: r.log, rfl⟩

theorem Alike.weight_eq (h : r.Alike r') : r'.weight = r.weight := by
  obtain ⟨log, rfl⟩ := h
  rfl

theorem Alike.exhausted_eq (h : r.Alike r') : r'.exhausted = r.exhausted := by
  obtain ⟨log, rfl⟩ := h
  rfl

theorem Alike.filename_eq (h : r.Alike r') : r'.filename = r.filename := by
  obtain ⟨log, rfl⟩ := h
  rfl

theorem Alike.result_close (h : r.Alike r') : r'.close.result = r.close.result := by
  obtain ⟨log, rfl⟩ := h
  unfold close
  split <;> rfl

structure Agree (a b : Step Fault Reader (Option Char)) : Prop where
  state : a.state.Alike b.state
  result : ∀ c, a.result = .ok c ↔ b.result = .ok c

theorem Alike.finish_agree (h : r.Alike r') : Agree r.finish r'.finish := by
  obtain ⟨log, rfl⟩ := h
  by_cases ho : r.isOpen
  · cases hc : r.supply.close with
    | mk result supply =>
      cases result <;> simp only [finish, close, note, ho, hc, if_true] <;>
        exact ⟨⟨_, rfl⟩, fun _ => Iff.rfl⟩
  · simp only [finish, close, note, ho]
    exact ⟨⟨_, rfl⟩, fun _ => Iff.rfl⟩

theorem Alike.failed_agree (h : r.Alike r') (f : Failure) (line line' : Option Int) :
    Agree (r.failed f line) (r'.failed f line') := by
  obtain ⟨log, rfl⟩ := h
  by_cases hf : f.isReadError
  · by_cases ho : r.isOpen
    · cases hc : r.supply.close with
      | mk result supply =>
        cases result <;> cases hp : r.policy <;>
          simp only [failed, close, note, hf, ho, hc, hp, if_true] <;>
            exact ⟨⟨_, rfl⟩, by simp⟩
    · cases hp : r.policy <;> simp only [failed, close, note, hf, ho, hp, if_true] <;>
        exact ⟨⟨_, rfl⟩, by simp⟩
  · simp only [failed, hf]
    exact ⟨⟨_, rfl⟩, by simp⟩

theorem Alike.read_agree (h : r.Alike r') (line line' : Option Int) :
    Agree (r.read line) (r'.read line') := by
  obtain ⟨log, rfl⟩ := h
  unfold read
  simp only
  split
  · exact ⟨⟨_, rfl⟩, fun _ => Iff.rfl⟩
  · split
    · exact ⟨⟨_, rfl⟩, fun _ => Iff.rfl⟩
    · split
      · exact ⟨⟨_, rfl⟩, fun _ => Iff.rfl⟩
      · exact Alike.finish_agree ⟨log, rfl⟩
      · exact Alike.failed_agree ⟨log, rfl⟩ _ _ _

theorem ReadCase.filename_eq {line : Option Int} {step : Step Fault Reader (Option Char)}
    (h : ReadCase r line step) : step.state.filename = r.filename := by
  cases h <;> rfl

theorem filename_read (r : Reader) (line : Option Int) :
    (r.read line).state.filename = r.filename :=
  (readCase_read r line).filename_eq

theorem read_of_closed (hp : r.pending = []) (ho : r.isOpen = false) (line : Option Int) :
    r.read line = ⟨.ok none, r⟩ := by
  simp [read, hp, ho]

theorem closed_of_read_none {line : Option Int} (h : r.read line = ⟨.ok none, r'⟩) :
    r'.pending = [] ∧ r'.isOpen = false := by
  cases ReadCase.of_eq h with
  | closed hp ho => exact ⟨hp, ho⟩
  | ended hp ho hn hc => exact ⟨rfl, rfl⟩
  | passedOver hp ho hn hf hc hr => exact ⟨rfl, rfl⟩

theorem read_of_read_none {line : Option Int} (h : r.read line = ⟨.ok none, r'⟩)
    (line' : Option Int) : r'.read line' = ⟨.ok none, r'⟩ :=
  read_of_closed (closed_of_read_none h).1 (closed_of_read_none h).2 line'

theorem exhausted_iff : r.exhausted = true ↔ r.pending = [] ∧ r.isOpen = false := by
  simp [exhausted, and_comm]

theorem exhausted_close (r : Reader) : r.close.state.exhausted = true := by
  rw [exhausted_iff, close]
  by_cases ho : r.isOpen = true
  · rw [if_pos ho]
    exact ⟨rfl, rfl⟩
  · rw [if_neg ho]
    exact ⟨rfl, by simpa using ho⟩

theorem eq_unreadable_of_read {line : Option Int} {e : ScanError}
    (h : (r.read line).result = .error (.scan e)) :
    ∃ f, e = .unreadable r.filename f line := by
  have hc := readCase_read r line
  generalize r.read line = step at h hc
  cases hc with
  | reported hp ho hn hf hc hr =>
    cases h
    exact ⟨_, rfl⟩
  | _ => cases h

def delivery : Except Fault (Option Char) → List Char
  | .ok (some c) => [c]
  | _ => []

def after : Nat → Reader → Reader
  | 0, r => r
  | n + 1, r => after n (r.read none).state

def given : Nat → Reader → List Char
  | 0, _ => []
  | n + 1, r => delivery (r.read none).result ++ given n (r.read none).state

theorem after_add (m n : Nat) (r : Reader) : after (m + n) r = after n (after m r) := by
  induction m generalizing r with
  | zero => rw [Nat.zero_add, after]
  | succ m ih => rw [Nat.succ_add, after, after, ih]

theorem given_add (m n : Nat) (r : Reader) :
    given (m + n) r = given m r ++ given n (after m r) := by
  induction m generalizing r with
  | zero => simp [given, after]
  | succ m ih => rw [Nat.succ_add, given, given, after, ih, List.append_assoc]

theorem Agree.delivery_eq {a b : Step Fault Reader (Option Char)} (h : Agree a b) :
    delivery b.result = delivery a.result := by
  cases ha : a.result with
  | ok c => rw [(h.result c).1 ha]
  | error e =>
    cases hb : b.result with
    | error e' => rfl
    | ok c => exact absurd ((h.result c).2 hb) (by simp [ha])

theorem Alike.after_alike (h : r.Alike r') (n : Nat) : (after n r).Alike (after n r') := by
  induction n generalizing r r' with
  | zero => exact h
  | succ n ih => exact ih (h.read_agree none none).state

theorem Alike.given_eq (h : r.Alike r') (n : Nat) : given n r' = given n r := by
  induction n generalizing r r' with
  | zero => rfl
  | succ n ih =>
    have ha := h.read_agree none none
    rw [given, given, ih ha.state, ha.delivery_eq]

theorem weight_after_le (n : Nat) (r : Reader) : (after n r).weight ≤ r.weight := by
  induction n generalizing r with
  | zero => exact Nat.le_refl _
  | succ n ih => exact (ih _).trans (weight_read_le r none)

theorem weight_after_lt {n : Nat} (h : given n r ≠ []) : (after n r).weight < r.weight := by
  induction n generalizing r with
  | zero => exact absurd rfl h
  | succ n ih =>
    have hle := weight_after_le n (r.read none).state
    by_cases hd : delivery (r.read none).result = []
    · rw [given, hd, List.nil_append] at h
      exact (ih h).trans_le (weight_read_le r none)
    · refine hle.trans_lt ?_
      cases hr : r.read none with
      | mk result r₁ =>
        rw [hr] at hd
        match result with
        | .ok (some c) => exact weight_read_some hr
        | .ok none => exact absurd rfl hd
        | .error e => exact absurd rfl hd

/-- `r.Delivers cs r'`: reads take the reader `r` to `r'` and meanwhile give out `cs`. -/
def Delivers (r : Reader) (cs : List Char) (r' : Reader) : Prop :=
  ∃ n, given n r = cs ∧ (after n r).Alike r'

theorem Delivers.refl (r : Reader) : r.Delivers [] r := ⟨0, rfl, .refl r⟩

theorem Alike.delivers (h : r.Alike r') : r.Delivers [] r' := ⟨0, rfl, h⟩

theorem delivers_read (r : Reader) (line : Option Int) :
    r.Delivers (delivery (r.read line).result) (r.read line).state := by
  have ha := (Alike.refl r).read_agree none line
  exact ⟨1, by simp [given, ha.delivery_eq], ha.state⟩

theorem Delivers.trans {r'' : Reader} (h : r.Delivers cs r') (h' : r'.Delivers cs' r'') :
    r.Delivers (cs ++ cs') r'' := by
  obtain ⟨m, rfl, hm⟩ := h
  obtain ⟨n, rfl, hn⟩ := h'
  refine ⟨m + n, ?_, ?_⟩
  · rw [given_add, hm.given_eq]
  · rw [after_add]
    exact (hm.after_alike n).trans hn

theorem given_add_eq_of_alike {m d : Nat} (h : (after m r).Alike (after (m + d) r)) :
    given (m + d) r = given m r := by
  have hd : given d (after m r) = [] := by
    by_contra hne
    have hlt := weight_after_lt hne
    rw [← after_add, h.weight_eq] at hlt
    exact Nat.lt_irrefl _ hlt
  rw [given_add, hd, List.append_nil]

theorem Delivers.unique (h : r.Delivers cs r') (h' : r.Delivers cs' r') : cs = cs' := by
  obtain ⟨m, rfl, hm⟩ := h
  obtain ⟨n, rfl, hn⟩ := h'
  rcases Nat.le_total m n with hle | hle
  · obtain ⟨d, rfl⟩ := Nat.exists_eq_add_of_le hle
    exact (given_add_eq_of_alike (hm.trans hn.symm)).symm
  · obtain ⟨d, rfl⟩ := Nat.exists_eq_add_of_le hle
    exact given_add_eq_of_alike (hn.trans hm.symm)

/-- The characters to come, up to the first read that gives none or fails. -/
def upcoming (r : Reader) : List Char :=
  match _h : r.read none with
  | ⟨.ok (some c), r'⟩ => c :: upcoming r'
  | _ => []
termination_by r.weight
decreasing_by exact weight_read_some _h

theorem Agree.eq_of_ok {a b : Step Fault Reader (Option Char)} (h : Agree a b) {c : Option Char}
    (ha : a = ⟨.ok c, r'⟩) : ∃ r'', b = ⟨.ok c, r''⟩ ∧ r'.Alike r'' := by
  subst ha
  obtain ⟨result, state⟩ := b
  have hr : result = .ok c := (h.result c).1 rfl
  exact ⟨state, by rw [hr], h.state⟩

theorem Alike.upcoming_eq (h : r.Alike r') : r'.upcoming = r.upcoming := by
  fun_induction upcoming r generalizing r' with
  | case1 r c r₁ hr ih =>
    obtain ⟨r₂, hr', ha⟩ := (h.read_agree none none).eq_of_ok hr
    rw [upcoming]
    split
    · rename_i c' r₃ hr''
      cases hr'.symm.trans hr''
      rw [ih ha]
    · rename_i hne
      exact absurd hr' (hne c r₂)
  | case2 r hne =>
    rw [upcoming]
    split
    · rename_i c r₁ hr
      obtain ⟨r₂, hr', -⟩ := (h.symm.read_agree none none).eq_of_ok hr
      exact absurd hr' (hne c r₂)
    · rfl

theorem upcoming_of_read_some {line : Option Int} {c : Char}
    (h : r.read line = ⟨.ok (some c), r'⟩) : r.upcoming = c :: r'.upcoming := by
  obtain ⟨r₂, hr, ha⟩ := ((Alike.refl r).read_agree line none).eq_of_ok h
  rw [upcoming]
  split
  · rename_i c' r₃ hr'
    cases hr.symm.trans hr'
    rw [ha.upcoming_eq]
  · rename_i hne
    exact absurd hr (hne c r₂)

theorem upcoming_eq_nil (line : Option Int) (h : ∀ c, (r.read line).result ≠ .ok (some c)) :
    r.upcoming = [] := by
  rw [upcoming]
  split
  · rename_i c r₁ hr
    obtain ⟨r₂, hr', -⟩ := ((Alike.refl r).read_agree none line).eq_of_ok hr
    exact absurd (by rw [hr']) (h c)
  · rfl

/-- No read from here on fails, and neither does closing the stream. -/
def Quiet (r : Reader) : Prop :=
  ∀ n, (∀ line e, ((after n r).read line).result ≠ .error e) ∧ (after n r).close.result = .ok ()

theorem Quiet.read_ne_error (h : r.Quiet) (line : Option Int) (e : Fault) :
    (r.read line).result ≠ .error e := (h 0).1 line e

theorem Quiet.close_ok (h : r.Quiet) : r.close.result = .ok () := (h 0).2

theorem Quiet.alike (h : r.Quiet) (ha : r.Alike r') : r'.Quiet := by
  intro n
  have hn := ha.after_alike n
  refine ⟨fun line e he => ?_, by rw [hn.result_close, (h n).2]⟩
  have hag := hn.read_agree line line
  cases hr : ((after n r).read line).result with
  | error e' => exact (h n).1 line e' hr
  | ok c => simp [(hag.result c).1 hr] at he

theorem Quiet.read (h : r.Quiet) (line : Option Int) : (r.read line).state.Quiet := by
  have hn : (r.read none).state.Quiet := fun n => h (n + 1)
  exact hn.alike ((Alike.refl r).read_agree none line).state

theorem Quiet.upcoming_eq (h : r.Quiet) (n : Nat) :
    r.upcoming = given n r ++ (after n r).upcoming := by
  induction n generalizing r with
  | zero => rfl
  | succ n ih =>
    have ih := ih (h.read none)
    rw [given, after, List.append_assoc, ← ih]
    cases hr : r.read none with
    | mk result r' =>
      match result with
      | .ok (some c) => exact upcoming_of_read_some hr
      | .ok none =>
        have hn : r.upcoming = [] := upcoming_eq_nil none (by simp [hr])
        have hn' : r'.upcoming = [] := upcoming_eq_nil none (by simp [read_of_read_none hr])
        rw [hn, hn']
        rfl
      | .error e => exact absurd (by rw [hr]) (h.read_ne_error none e)

theorem Quiet.upcoming_of_delivers (h : r.Quiet) (hd : r.Delivers cs r') :
    r.upcoming = cs ++ r'.upcoming := by
  obtain ⟨n, rfl, ha⟩ := hd
  rw [h.upcoming_eq n, ha.upcoming_eq]

theorem quiet_of_invariant {P : Reader → Prop}
    (hP : ∀ r, P r → r.close.result = .ok () ∧
      ∃ c r', (∀ line, r.read line = ⟨.ok c, r'⟩) ∧ P r') (h : P r) : r.Quiet := by
  intro n
  induction n generalizing r with
  | zero =>
    obtain ⟨hc, c, r', hr, -⟩ := hP r h
    exact ⟨fun line e => by simp [after, hr], hc⟩
  | succ n ih =>
    obtain ⟨-, c, r', hr, h'⟩ := hP r h
    rw [after, hr]
    exact ih h'

theorem upcoming_of_invariant {P : Reader → List Char → Prop}
    (hP : ∀ r cs, P r cs → ∃ r', r.read none = ⟨.ok cs.head?, r'⟩ ∧ P r' cs.tail) (h : P r cs) :
    r.upcoming = cs := by
  induction cs generalizing r with
  | nil =>
    obtain ⟨r', hr, -⟩ := hP r [] h
    exact upcoming_eq_nil none (by simp [hr])
  | cons c cs ih =>
    obtain ⟨r', hr, h'⟩ := hP r (c :: cs) h
    rw [upcoming_of_read_some hr, ih h']

inductive TextLeft (r : Reader) (cs : List Char) : Prop
  | opened {s : Stream Char} (pieces : List (List Char)) (hs : r.supply = .text s)
      (hc : s.closeFailure = none) (hr : s.readings = pieces.map .piece) (hn : [] ∉ pieces)
      (ho : r.isOpen = true) (hcs : cs = r.pending ++ pieces.flatten)
  | closed (hp : r.pending = []) (ho : r.isOpen = false) (hcs : cs = [])

theorem textLeft_ofText (text : List Char) (filename : String) (policy : ReadPolicy) :
    TextLeft (.ofText (.ofItems text) filename policy) text := by
  have hf : (text.map ([·])).flatten = text := by
    induction text with
    | nil => rfl
    | cons c cs ih => simp [ih]
  refine .opened (text.map ([·])) (s := .ofItems text) rfl rfl ?_ ?_ rfl ?_
  · simp [Stream.ofItems]
  · simp
  · rw [hf]
    rfl

theorem TextLeft.close_ok (h : TextLeft r cs) : r.close.result = .ok () := by
  cases h with
  | opened pieces hs hc hr hn ho hcs => simp [close, ho, hs, Supply.close, Stream.close, hc]
  | closed hp ho hcs => simp [close, ho]

theorem TextLeft.read (h : TextLeft r cs) :
    ∃ r', (∀ line, r.read line = ⟨.ok cs.head?, r'⟩) ∧ TextLeft r' cs.tail := by
  cases h with
  | closed hp ho hcs =>
    subst hcs
    exact ⟨r, read_of_closed hp ho, .closed hp ho rfl⟩
  | @opened s pieces hs hc hr hn ho hcs =>
    subst hcs
    cases hp : r.pending with
    | cons c rest =>
      refine ⟨{ r with pending := rest }, fun line => by simp [Reader.read, hp], ?_⟩
      exact .opened pieces hs hc hr hn ho rfl
    | nil =>
      cases pieces with
      | nil =>
        refine ⟨(r.closedOn (.text { s with reads := s.reads + 1, closes := s.closes + 1 })).note
          (.endOfInput r.filename), fun line => ?_, .closed rfl rfl rfl⟩
        simp [Reader.read, hp, ho, hs, hr, Supply.next, Stream.read, finish, note, close,
          Supply.close, Stream.close, hc, closedOn]
      | cons piece pieces =>
        cases piece with
        | nil => exact absurd List.mem_cons_self hn
        | cons c rest =>
          let s' : Stream Char := { s with readings := pieces.map .piece, reads := s.reads + 1 }
          refine ⟨{ r with supply := .text s', pending := rest }, fun line => ?_, ?_⟩
          · simp [Reader.read, hp, ho, hs, hr, Supply.next, Stream.read, s']
          · exact .opened pieces rfl hc rfl (fun hmem => hn (List.mem_cons_of_mem _ hmem)) ho rfl

theorem TextLeft.quiet (h : TextLeft r cs) : r.Quiet := by
  refine quiet_of_invariant (P := fun r => ∃ cs, TextLeft r cs) ?_ ⟨cs, h⟩
  rintro r ⟨cs, h⟩
  obtain ⟨r', hr, h'⟩ := h.read
  exact ⟨h.close_ok, _, r', hr, _, h'⟩

theorem TextLeft.upcoming_eq (h : TextLeft r cs) : r.upcoming = cs := by
  refine upcoming_of_invariant (P := TextLeft) (fun r cs h => ?_) h
  obtain ⟨r', hr, h'⟩ := h.read
  exact ⟨r', hr none, h'⟩

end Reader
end RpalLexer
