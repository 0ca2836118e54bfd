import RpalLexer.Options

/-!
# Options of an environment

Each option is set by a variable of its own, and a value that is not understood leaves the default.
Words are compared in lower case; of the rules for lower case only those for the ASCII letters play
a part. The one value that is not passed over is an encoding with a null character in its name. Main
statement: `environment_sets_options`.
-/
namespace RpalLexer

namespace Text

def kelvinSign : Char := '\u212a'

def dottedCapitalI : Char := '\u0130'

/-- `Lowers cs ds`: the text `ds` is `cs` in lower case. Two characters outside ASCII become texts
with an ASCII letter; of all others it is only said that ASCII plays no part in what they become. -/
inductive Lowers : List Char → List Char → Prop
  | nil : Lowers [] []
  | ascii {c : Char} {cs ds : List Char} (hc : c.toNat < 128) (h : Lowers cs ds) :
      Lowers (c :: cs) (c.toLower :: ds)
  | kelvinSign {cs ds : List Char} (h : Lowers cs ds) : Lowers (kelvinSign :: cs) ('k' :: ds)
  | dottedCapitalI {cs ds : List Char} (h : Lowers cs ds) :
      Lowers (dottedCapitalI :: cs) ('i' :: '\u0307' :: ds)
  | other {c d : Char} {cs ds lowered : List Char} (hc : 128 ≤ c.toNat)
      (hk : c ≠ Text.kelvinSign) (hi : c ≠ Text.dottedCapitalI)
      (hd : ∀ x ∈ d :: lowered, 128 ≤ x.toNat) (h : Lowers cs ds) :
      Lowers (c :: cs) (d :: lowered ++ ds)

/-- No character outside ASCII has a part in the lower case of a text that reads like this. -/
def IsKeyword (word : List Char) : Prop := ∀ c ∈ word, c.toNat < 128 ∧ c ≠ 'k'

instance (word : List Char) : Decidable (IsKeyword word) :=
  List.decidableBAll (fun c : Char => c.toNat < 128 ∧ c ≠ 'k') word

theorem toLower_of_not_ascii {c : Char} (hc : 128 ≤ c.toNat) : c.toLower = c := by
  have hn : ¬(c.val ≥ 'A'.val ∧ c.val ≤ 'Z'.val) := by
    rintro ⟨-, hz⟩
    have hle : c.toNat ≤ 90 := hz
    omega
  exact dif_neg hn

theorem toLower_ne_of_not_ascii {c d : Char} (hc : 128 ≤ c.toNat) (hd : d.toNat < 128) :
    c.toLower ≠ d := by
  rw [toLower_of_not_ascii hc]
  rintro rfl
  omega

theorem Lowers.eq_iff {cs ds word : List Char} (h : Lowers cs ds) (hw : IsKeyword word) :
    ds = word ↔ cs.map Char.toLower = word := by
  induction h generalizing word with
  | nil => rfl
  | ascii hc _ ih =>
    cases word with
    | nil => simp
    | cons w word =>
      rw [List.map_cons, List.cons.injEq, List.cons.injEq, ih fun c hm => hw c (.tail w hm)]
  | kelvinSign _ _ =>
    cases word with
    | nil => simp
    | cons w word =>
      obtain ⟨hlt, hk⟩ := hw w (.head word)
      refine iff_of_false (fun he => hk (List.cons.inj he).1.symm) fun he => ?_
      exact toLower_ne_of_not_ascii (by decide) hlt (List.cons.inj he).1
  | dottedCapitalI _ _ =>
    cases word with
    | nil => simp
    | cons w word =>
      refine iff_of_false (fun he => ?_) fun he => ?_
      · have hlt := (hw '\u0307' (by rw [← he]; simp)).1
        exact absurd hlt (by decide)
      · exact toLower_ne_of_not_ascii (by decide) (hw w (.head word)).1 (List.cons.inj he).1
  | @other c d cs ds lowered hc hk hi hd _ _ =>
    cases word with
    | nil => simp
    | cons w word =>
      have hlt := (hw w (.head word)).1
      -- A keyword has neither the character itself nor any that it becomes.
      refine iff_of_false (fun he => ?_) fun he => ?_
      · rw [← (List.cons.inj he).1] at hlt
        exact absurd (hd d (.head lowered)) (Nat.not_le.2 hlt)
      · exact toLower_ne_of_not_ascii hc hlt (List.cons.inj he).1

def lowerChars (text : String) : String :=
  String.ofList (text.toList.flatMap fun c =>
    if c = kelvinSign then ['k'] else if c = dottedCapitalI then ['i', '\u0307'] else [c.toLower])

theorem lowers_lowerChars (text : String) : Lowers text.toList (lowerChars text).toList := by
  rw [lowerChars, String.toList_ofList]
  induction text.toList with
  | nil => exact .nil
  | cons c cs ih =>
    rw [List.flatMap_cons]
    by_cases hk : c = kelvinSign
    · subst hk
      exact .kelvinSign ih
    · by_cases hi : c = dottedCapitalI
      · subst hi
        exact .dottedCapitalI ih
      · rw [if_neg hk, if_neg hi]
        by_cases hc : c.toNat < 128
        · exact .ascii hc ih
        · rw [toLower_of_not_ascii (Nat.not_lt.1 hc)]
          exact .other (Nat.not_lt.1 hc) hk hi (by simpa using hc) ih

end Text

namespace ReadPolicy

theorem find_eq_ok_iff {word : String} {p : ReadPolicy} : find word = .ok p ↔ word = p.value := by
  constructor
  · intro h
    rw [find] at h
    split at h
    · rename_i q hq
      cases h
      have hb := List.find?_some hq
      exact (beq_iff_eq.1 hb).symm
    · cases h
  · rintro rfl
    cases p <;> rfl

end ReadPolicy

namespace Encoding

theorem find_of_null {name : String} (h : '\x00' ∈ name.toList) :
    find name = .error (.plain .badValue "embedded null character") := by
  rw [find, if_pos (List.contains_iff_mem.2 h)]

theorem find_cases {name : String} (h : '\x00' ∉ name.toList) :
    (∃ e, find name = .ok e) ∨
      find name = .error (.plain .unknownName ("unknown encoding: " ++ name)) := by
  rw [find, if_neg (mt List.contains_iff_mem.1 h)]
  cases ofName? name with
  | none => exact Or.inr rfl
  | some e => exact Or.inl ⟨e, rfl⟩

end Encoding

namespace Options

variable {env env' : Environment} {lower : String → String} {value name : String} {o o' : Options}

/-- The options are what the variables of the environment ask for, and otherwise the defaults. A
word is compared without the blanks at its ends and in lower case, an encoding as it is. -/
structure SetBy (lower : String → String) (env : Environment) (o : Options) : Prop where
  strict : (∃ value, env.lookup strictVariable = some value ∧ lower (Text.trim value) ∈ trueWords) →
    o.strings = .raise ∧ o.chars = .raise
  notStrict :
    (¬∃ value, env.lookup strictVariable = some value ∧ lower (Text.trim value) ∈ trueWords) →
      o.strings = .discard ∧ o.chars = .drop
  readErrors : ∀ (value : String) (p : ReadPolicy), env.lookup readErrorsVariable = some value →
    lower (Text.trim value) = p.value → o.readErrors = p
  noReadErrors : (¬∃ (value : String) (p : ReadPolicy),
    env.lookup readErrorsVariable = some value ∧ lower (Text.trim value) = p.value) →
      o.readErrors = .raise
  encoding : ∀ name e, env.lookup encodingVariable = some name → Encoding.find name = .ok e →
    o.encoding = name
  noEncoding : (¬∃ name e, env.lookup encodingVariable = some name ∧ Encoding.find name = .ok e) →
    o.encoding = "utf-8"

section Words

variable (hl : ∀ text, Text.Lowers text.toList (lower text).toList)
include hl

theorem lower_trim_eq_iff {word : String} (hw : Text.IsKeyword word.toList) :
    lower (Text.trim value) = word ↔ settingWord value = word := by
  rw [← String.toList_inj, (hl _).eq_iff hw, settingWord, Text.lowerAscii, ← String.toList_inj,
    String.toList_ofList]

theorem lower_trim_mem_iff :
    lower (Text.trim value) ∈ trueWords ↔ settingWord value ∈ trueWords := by
  have hw : ∀ w ∈ trueWords, Text.IsKeyword w.toList := by decide +kernel
  constructor
  · intro h
    rwa [(lower_trim_eq_iff hl (hw _ h)).1 rfl]
  · intro h
    rwa [(lower_trim_eq_iff hl (hw _ h)).2 rfl]

theorem lower_trim_eq_value_iff {p : ReadPolicy} :
    lower (Text.trim value) = p.value ↔ ReadPolicy.find (settingWord value) = .ok p := by
  have hw : Text.IsKeyword p.value.toList := by cases p <;> decide +kernel
  rw [lower_trim_eq_iff hl hw, ReadPolicy.find_eq_ok_iff]

theorem strictWanted_iff : strictWanted env = true ↔
    ∃ value, env.lookup strictVariable = some value ∧ lower (Text.trim value) ∈ trueWords := by
  rw [strictWanted]
  cases env.lookup strictVariable with
  | none => simp
  | some value => simp [lower_trim_mem_iff hl]

theorem readErrorsFrom_of_named {p : ReadPolicy} (hv : env.lookup readErrorsVariable = some value)
    (hp : lower (Text.trim value) = p.value) : readErrorsFrom env = p := by
  rw [lower_trim_eq_value_iff hl] at hp
  simp only [readErrorsFrom, hv, hp]
  rfl

theorem readErrorsFrom_of_not_named (hn : ¬∃ (value : String) (p : ReadPolicy),
    env.lookup readErrorsVariable = some value ∧ lower (Text.trim value) = p.value) :
    readErrorsFrom env = .raise := by
  rw [readErrorsFrom]
  cases hv : env.lookup readErrorsVariable with
  | none => rfl
  | some value =>
    cases hf : ReadPolicy.find (settingWord value) with
    | error f => simp only [hf]; rfl
    | ok p => exact absurd ⟨value, p, hv, (lower_trim_eq_value_iff hl).2 hf⟩ hn

end Words

theorem encodingFrom_of_known {e : Encoding} (hv : env.lookup encodingVariable = some name)
    (he : Encoding.find name = .ok e) : encodingFrom env = .ok name := by
  have hne : name.isEmpty = false := by
    rw [Bool.eq_false_iff]
    intro hem
    rw [String.isEmpty_iff.1 hem] at he
    cases he
  simp only [encodingFrom, hv, hne, he]
  rfl

theorem encodingFrom_of_unknown
    (hn : ∀ name, env.lookup encodingVariable = some name → '\x00' ∉ name.toList)
    (hu : ¬∃ name e, env.lookup encodingVariable = some name ∧ Encoding.find name = .ok e) :
    encodingFrom env = .ok "utf-8" := by
  rw [encodingFrom]
  cases hv : env.lookup encodingVariable with
  | none => rfl
  | some name =>
    rcases Encoding.find_cases (hn name hv) with ⟨e, he⟩ | he
    · exact absurd ⟨name, e, hv, he⟩ hu
    · simp only [he, ite_self]

theorem encodingFrom_of_null (hv : env.lookup encodingVariable = some name)
    (h : '\x00' ∈ name.toList) :
    encodingFrom env = .error (.plain .badValue "embedded null character") := by
  have hne : name.isEmpty = false := by
    rw [Bool.eq_false_iff]
    intro hem
    rw [String.isEmpty_iff.1 hem] at h
    simp at h
  simp only [encodingFrom, hv, hne, Encoding.find_of_null h]
  rfl

theorem setBy_of_encodingFrom (hl : ∀ text, Text.Lowers text.toList (lower text).toList)
    (hn : ∀ name, env.lookup encodingVariable = some name → '\x00' ∉ name.toList) :
    ∃ o, ofEnvironment env = .ok o ∧ o.SetBy lower env := by
  obtain ⟨chosen, hchosen⟩ : ∃ chosen, encodingFrom env = .ok chosen := by
    by_cases hk : ∃ name e, env.lookup encodingVariable = some name ∧ Encoding.find name = .ok e
    · obtain ⟨name, e, hv, he⟩ := hk
      exact ⟨name, encodingFrom_of_known hv he⟩
    · exact ⟨"utf-8", encodingFrom_of_unknown hn hk⟩
  rw [ofEnvironment, hchosen]
  refine ⟨_, rfl, ?_, ?_, fun value p => readErrorsFrom_of_named hl,
    readErrorsFrom_of_not_named hl, fun name e hv he => ?_, fun hu => ?_⟩
  · intro hs
    simp only [(strictWanted_iff hl).2 hs, if_true, and_self]
  · intro hs
    simp [mt (strictWanted_iff hl).1 hs]
  · exact Except.ok.inj (hchosen.symm.trans (encodingFrom_of_known hv he))
  · exact Except.ok.inj (hchosen.symm.trans (encodingFrom_of_unknown hn hu))

theorem eq_of_lookup_eq (h : ofEnvironment env = .ok o) (h' : ofEnvironment env' = .ok o') :
    (env.lookup strictVariable = env'.lookup strictVariable →
      o.strings = o'.strings ∧ o.chars = o'.chars) ∧
    (env.lookup readErrorsVariable = env'.lookup readErrorsVariable →
      o.readErrors = o'.readErrors) ∧
    (env.lookup encodingVariable = env'.lookup encodingVariable → o.encoding = o'.encoding) := by
  rw [ofEnvironment] at h h'
  cases hc : encodingFrom env with
  | error f =>
    rw [hc] at h
    cases h
  | ok name =>
    cases hc' : encodingFrom env' with
    | error f =>
      rw [hc'] at h'
      cases h'
    | ok name' =>
      rw [hc] at h
      rw [hc'] at h'
      cases h
      cases h'
      refine ⟨fun he => ?_, fun he => ?_, fun he => ?_⟩
      · have hs : strictWanted env = strictWanted env' := by rw [strictWanted, he, strictWanted]
        simp only [hs, and_self]
      · simp only [readErrorsFrom, he]
      · rw [encodingFrom, he] at hc
        exact Except.ok.inj (hc.symm.trans hc')

end Options

/-- Whatever the values of an environment are, options come out of it unless the encoding is named
with a null character, and then that is the failure. Each option is what its own variable asks for
if that is understood, and the default otherwise, and no other variable has a part in it. This
holds for every rule for lower case that maps the ASCII letters as usual. -/
theorem environment_sets_options {lower : String → String}
    (hl : ∀ text, Text.Lowers text.toList (lower text).toList) (env : Environment) :
    ((∀ name, env.lookup Options.encodingVariable = some name → '\x00' ∉ name.toList) →
      ∃ o, Options.ofEnvironment env = .ok o ∧ o.SetBy lower env) ∧
    (∀ name, env.lookup Options.encodingVariable = some name → '\x00' ∈ name.toList →
      Options.ofEnvironment env = .error (.plain .badValue "embedded null character")) ∧
    ∀ env' o o', Options.ofEnvironment env = .ok o → Options.ofEnvironment env' = .ok o' →
      (env.lookup Options.strictVariable = env'.lookup Options.strictVariable →
        o.strings = o'.strings ∧ o.chars = o'.chars) ∧
      (env.lookup Options.readErrorsVariable = env'.lookup Options.readErrorsVariable →
        o.readErrors = o'.readErrors) ∧
      (env.lookup Options.encodingVariable = env'.lookup Options.encodingVariable →
        o.encoding = o'.encoding) := by
  refine ⟨Options.setBy_of_encodingFrom hl, fun name hv h => ?_,
    fun env' o o' h h' => Options.eq_of_lookup_eq h h'⟩
  rw [Options.ofEnvironment, Options.encodingFrom_of_null hv h]

theorem environment_sets_options_of_words :
    let env : Environment := [("RPAL_SCAN_STRICT", "\u3000 YeS\u2028\x1c"),
      ("RPAL_SCAN_IO_ERRORS", "eo\u212a"), ("RPAL_SCAN_ENCODING", "no-such-codec")]
    Options.ofEnvironment env = .ok { strings := .raise, chars := .raise } ∧
      Options.SetBy Text.lowerChars env { strings := .raise, chars := .raise } := by
  intro env
  have hn : ∀ name, env.lookup Options.encodingVariable = some name → '\x00' ∉ name.toList := by
    intro name hv
    have he : name = "no-such-codec" := by
      have hlook : env.lookup Options.encodingVariable = some "no-such-codec" := by decide +kernel
      exact Option.some.inj (hv.symm.trans hlook)
    subst he
    decide +kernel
  have hr : Options.ofEnvironment env = .ok { strings := .raise, chars := .raise } := rfl
  obtain ⟨o, ho, hs⟩ := (environment_sets_options Text.lowers_lowerChars env).1 hn
  cases hr.symm.trans ho
  exact ⟨hr, hs⟩

theorem null_in_encoding_variable : ¬∃ o,
    Options.ofEnvironment [("RPAL_SCAN_ENCODING", "\x00")] = .ok o := by
  rintro ⟨o, ho⟩
  have hr : Options.ofEnvironment [("RPAL_SCAN_ENCODING", "\x00")] =
      .error (.plain .badValue "embedded null character") := rfl
  cases hr.symm.trans ho

end RpalLexer
