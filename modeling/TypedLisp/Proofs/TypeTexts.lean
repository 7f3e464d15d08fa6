import TypedLisp.Proofs.Reading.Lexing
import TypedLisp.Proofs.Renumbering.Types

/-!
# What the text of a type says

The name of a data type is proper if it is the text of a symbol with a slash in it (`IsProperName`).
A type is written in words and marks, where no word runs on into what comes after it. Therefore
**two types have the same text exactly if they are alpha-equivalent**
(`Ty.text_eq_iff_and_names_apart`).
-/

namespace TypedLisp

open Lexer

/-! ## Names of variables -/

theorem toList_varName (i : Nat) : (varName i).toList =
    Char.ofNat ('a'.toNat + i % 26) :: if i < 26 then [] else Nat.toDigits 10 (i / 26) := by
  unfold varName
  split <;> simp [Nat.toList_repr]

/-- **Different variables have different names.** -/
theorem varName_injective : varName.Injective := by
  intro i j hij
  have hlists : (varName i).toList = (varName j).toList := congrArg String.toList hij
  rw [toList_varName, toList_varName, List.cons.injEq] at hlists
  obtain ⟨hletter, hnumber⟩ := hlists
  have hmod : i % 26 = j % 26 := by
    have hletters : ∀ m < 26, ∀ n < 26,
        Char.ofNat ('a'.toNat + m) = Char.ofNat ('a'.toNat + n) → m = n := by decide
    exact hletters _ (Nat.mod_lt i (by decide)) _ (Nat.mod_lt j (by decide)) hletter
  have hdiv : i / 26 = j / 26 := by
    by_cases hi : i < 26 <;> by_cases hj : j < 26
    · rw [Nat.div_eq_of_lt hi, Nat.div_eq_of_lt hj]
    · rw [if_pos hi, if_neg hj] at hnumber
      exact absurd hnumber.symm Nat.toDigits_ne_nil
    · rw [if_neg hi, if_pos hj] at hnumber
      exact absurd hnumber Nat.toDigits_ne_nil
    · rw [if_neg hi, if_neg hj] at hnumber
      rw [← Nat.ofDigitChars_ten_toDigits (n := i / 26), hnumber, Nat.ofDigitChars_ten_toDigits]
  omega

theorem isAlphanum_of_mem_varName {i : Nat} {c : Char} (hc : c ∈ (varName i).toList) :
    c.isAlphanum := by
  rw [toList_varName] at hc
  rcases List.mem_cons.1 hc with rfl | hc
  · have hletters : ∀ m < 26, (Char.ofNat ('a'.toNat + m)).isAlphanum := by decide
    exact hletters _ (Nat.mod_lt i (by decide))
  · split at hc
    · cases hc
    · have hdigit := Nat.isDigit_of_mem_toDigits (by decide) (by decide) hc
      rw [Char.isAlphanum, hdigit, Bool.or_true]

/-! ## Names of data types -/

/-- The words of the types that are written as such. -/
def typeWords : List String := ["Bool", "Str", "Int", "EnvIO"]

/-- The words that are neither the names of variables nor those of data types. -/
def reservedWords : List String := "Fn" :: typeWords

theorem varName_notMem_reservedWords (i : Nat) : varName i ∉ reservedWords := by
  intro hi
  have hletters : ∀ m < 26, ∀ w ∈ reservedWords,
      w.toList.head? ≠ some (Char.ofNat ('a'.toNat + m)) := by decide
  refine hletters _ (Nat.mod_lt i (by decide)) _ hi ?_
  rw [toList_varName, List.head?_cons]

/-- Whether a text is that of a symbol with a slash in it. -/
def IsProperName (n : String) : Prop := n.toList.all isSymbolChar ∧ '/' ∈ n.toList

instance : DecidablePred IsProperName := fun _ => inferInstanceAs (Decidable (_ ∧ _))

theorem IsProperName.notMem_reservedWords {n : String} (hn : IsProperName n) :
    n ∉ reservedWords := by
  have hslash : ∀ w ∈ reservedWords, '/' ∉ w.toList := by decide
  exact fun hmem => hslash n hmem hn.2

theorem IsProperName.ne_varName {n : String} (hn : IsProperName n) (i : Nat) : n ≠ varName i := by
  rintro rfl
  exact absurd (isAlphanum_of_mem_varName hn.2) (by decide)

namespace Ty

mutual

/-- The names of the data types in a type. -/
def dataNames : Ty → List String
  | .bool | .str | .int | .effect | .var _ => []
  | .vector e => e.dataNames
  | .set e => e.dataNames
  | .map k v => k.dataNames ++ v.dataNames
  | .fn ps r => dataNamesAll ps ++ r.dataNames
  | .data n => [n]
  | .applied b as => b.dataNames ++ dataNamesAll as

/-- The names of the data types in some types. -/
def dataNamesAll : List Ty → List String
  | [] => []
  | t :: ts => t.dataNames ++ dataNamesAll ts

end

theorem dataNamesAll_eq_flatMap (ts : List Ty) : dataNamesAll ts = ts.flatMap dataNames := by
  induction ts with
  | nil => rfl
  | cons t ts ih => rw [dataNamesAll, ih, List.flatMap_cons]

/-- Whether all data types in a type have proper names. -/
def Proper (t : Ty) : Prop := ∀ n ∈ t.dataNames, IsProperName n

instance : DecidablePred Proper := fun t => inferInstanceAs (Decidable (∀ n ∈ t.dataNames, _))

theorem proper_map {k v : Ty} : (Ty.map k v).Proper ↔ k.Proper ∧ v.Proper :=
  List.forall_mem_append

theorem proper_fn {ps : List Ty} {r : Ty} :
    (Ty.fn ps r).Proper ↔ ∀ t ∈ ps ++ [r], t.Proper := by
  simp only [Proper, dataNames, dataNamesAll_eq_flatMap, List.forall_mem_append,
    List.forall_mem_flatMap, List.forall_mem_singleton]

theorem proper_applied {b : Ty} {as : List Ty} :
    (Ty.applied b as).Proper ↔ b.Proper ∧ ∀ t ∈ as, t.Proper := by
  simp only [Proper, dataNames, dataNamesAll_eq_flatMap, List.forall_mem_append,
    List.forall_mem_flatMap]

theorem dataNames_rename (f : TyVar → TyVar) (t : Ty) : (t.rename f).dataNames = t.dataNames := by
  have hall : ∀ {ts : List Ty}, (∀ t ∈ ts, (t.rename f).dataNames = t.dataNames) →
      dataNamesAll (ts.map (rename f)) = dataNamesAll ts := fun ih => by
    rw [dataNamesAll_eq_flatMap, dataNamesAll_eq_flatMap, List.flatMap_map]
    exact List.flatMap_congr ih
  induction t with
  | bool | str | int | effect | data | var => rfl
  | vector e ih | set e ih => exact ih
  | map k v ihk ihv => simp only [rename_map, dataNames, ihk, ihv]
  | fn ps r ihps ihr => simp only [rename_fn, dataNames, hall ihps, ihr]
  | applied b as ihb ihas => simp only [rename_applied, dataNames, ihb, hall ihas]

/-! ## Types of one word -/

/-- The word that a type is written as, if it is just one. -/
def word? : Ty → Option String
  | .bool => some "Bool"
  | .str => some "Str"
  | .int => some "Int"
  | .effect => some "EnvIO"
  | .var v => some (varName v)
  | .data n => some n
  | _ => none

/-- The type that is written as one of the words of types. -/
def ofTypeWord : String → Ty
  | "Bool" => .bool
  | "Str" => .str
  | "Int" => .int
  | _ => .effect

variable {t u : Ty} {w : String} {cs rest rest' : List Char}

/-- A type of one word is that of a word of types, a variable or a data type. -/
theorem cases_of_word? (ht : t.Proper) (hw : t.word? = some w) :
    (w ∈ typeWords ∧ t = ofTypeWord w) ∨ (∃ v, w = varName v ∧ t = .var v) ∨
      (IsProperName w ∧ t = .data w) := by
  cases t with
  | bool | str | int | effect =>
    cases hw
    exact .inl ⟨by decide, rfl⟩
  | var v =>
    cases hw
    exact .inr (.inl ⟨v, rfl, rfl⟩)
  | data n =>
    cases hw
    exact .inr (.inr ⟨List.forall_mem_singleton.1 ht, rfl⟩)
  | _ => cases hw

theorem eq_of_word? (ht : t.Proper) (hu : u.Proper) (htw : t.word? = some w)
    (huw : u.word? = some w) : t = u := by
  have htype : w ∈ typeWords → w ∈ reservedWords := List.mem_cons_of_mem "Fn"
  rcases cases_of_word? ht htw with ⟨hw, rfl⟩ | ⟨v, rfl, rfl⟩ | ⟨hw, rfl⟩ <;>
    rcases cases_of_word? hu huw with ⟨hw', rfl⟩ | ⟨v', hv', rfl⟩ | ⟨hw', rfl⟩
  · rfl
  · exact absurd (htype hw) (hv' ▸ varName_notMem_reservedWords v')
  · exact absurd (htype hw) hw'.notMem_reservedWords
  · exact absurd (htype hw') (varName_notMem_reservedWords v)
  · rw [varName_injective hv']
  · exact absurd rfl (hw'.ne_varName v)
  · exact absurd (htype hw') hw.notMem_reservedWords
  · exact absurd hv' (hw.ne_varName v')
  · rfl

/-- The word of a type has only characters of symbols, and at least one, and is not the word of
functions. -/
theorem isWord_of_word? (ht : t.Proper) (hw : t.word? = some w) :
    (∀ c ∈ w.toList, isSymbolChar c) ∧ w.toList ≠ [] ∧ w ≠ "Fn" := by
  rcases cases_of_word? ht hw with ⟨hw, -⟩ | ⟨v, rfl, -⟩ | ⟨hw, -⟩
  · have hwords : ∀ w ∈ typeWords, w.toList.all isSymbolChar ∧ w.toList ≠ [] ∧ w ≠ "Fn" := by
      decide
    exact ⟨List.all_eq_true.1 (hwords w hw).1, (hwords w hw).2⟩
  · refine ⟨fun c hc => ?_, ?_, fun hFn => ?_⟩
    · rw [isSymbolChar, isAlphanum_of_mem_varName hc, Bool.true_or, Bool.true_or]
    · rw [toList_varName]
      exact List.cons_ne_nil _ _
    · exact varName_notMem_reservedWords v (hFn ▸ List.mem_cons_self)
  · refine ⟨List.all_eq_true.1 hw.1, List.ne_nil_of_mem hw.2, fun hFn => ?_⟩
    exact hw.notMem_reservedWords (hFn ▸ List.mem_cons_self)

/-! ## The characters of a type -/

/-- The characters of a type whose variables are named by their numbers. -/
def chars (t : Ty) : List Char := (t.textWith varName).toList

/-- The characters of arguments, each with a space before it. -/
def argChars (ts : List Ty) : List Char := (argsWith varName ts).toList

theorem chars_of_word? (hw : t.word? = some w) : t.chars = w.toList := by
  cases t <;> cases hw <;> rfl

theorem chars_vector (e : Ty) (rest : List Char) :
    (Ty.vector e).chars ++ rest = '[' :: (e.chars ++ ']' :: rest) := by
  simp [chars, textWith]

theorem chars_set (e : Ty) (rest : List Char) :
    (Ty.set e).chars ++ rest = '#' :: '\x7b' :: (e.chars ++ '\x7d' :: rest) := by
  simp [chars, textWith]

theorem chars_map (k v : Ty) (rest : List Char) :
    (Ty.map k v).chars ++ rest = '\x7b' :: (k.chars ++ ' ' :: (v.chars ++ '\x7d' :: rest)) := by
  simp [chars, textWith]

theorem chars_applied (b : Ty) (as : List Ty) (rest : List Char) :
    (Ty.applied b as).chars ++ rest = '(' :: (b.chars ++ (argChars as ++ ')' :: rest)) := by
  simp [chars, argChars, textWith]

theorem argChars_cons (t : Ty) (ts : List Ty) (rest : List Char) :
    argChars (t :: ts) ++ rest = ' ' :: (t.chars ++ (argChars ts ++ rest)) := by
  simp [argChars, argsWith, chars]

theorem argsWith_concat (name : TyVar → String) (ps : List Ty) (r : Ty) :
    argsWith name (ps ++ [r]) = " " ++ (textsWith name ps ++ textWith name r) := by
  induction ps with
  | nil => simp [argsWith, textsWith]
  | cons p ps ih => simp only [List.cons_append, argsWith, textsWith, ih, String.append_assoc]

/-- The parameters and the result of a function are written as arguments are. -/
theorem chars_fn (ps : List Ty) (r : Ty) (rest : List Char) :
    (Ty.fn ps r).chars ++ rest = '(' :: 'F' :: 'n' :: (argChars (ps ++ [r]) ++ ')' :: rest) := by
  simp [chars, argChars, textWith, argsWith_concat]

theorem chars_of_word?_eq_none (ht : t.word? = none) (rest : List Char) :
    ∃ c cs, t.chars ++ rest = c :: cs ∧ isSymbolChar c = false := by
  cases t with
  | vector e => exact ⟨_, _, chars_vector e rest, rfl⟩
  | set e => exact ⟨_, _, chars_set e rest, rfl⟩
  | map k v => exact ⟨_, _, chars_map k v rest, rfl⟩
  | fn ps r => exact ⟨_, _, chars_fn ps r rest, rfl⟩
  | applied b as => exact ⟨_, _, chars_applied b as rest, rfl⟩
  | _ => cases ht

/-! ## Reading the text of a type -/

theorem delimits_cons {c : Char} (hc : isSymbolChar c = false) (cs : List Char) :
    Delimits (c :: cs) := by
  rintro _ ⟨⟩
  exact hc

theorem delimits_argChars (ts : List Ty) (rest : List Char) :
    Delimits (argChars ts ++ ')' :: rest) := by
  cases ts with
  | nil => exact delimits_cons rfl rest
  | cons t ts =>
    rw [argChars_cons]
    exact delimits_cons rfl _

/-- A word in front of something else is the first word of a type, or the type is written with marks
and begins with no word. -/
theorem word_append_eq (ht : t.Proper) (hcs : ∀ c ∈ cs, isSymbolChar c) (hne : cs ≠ [])
    (hrest : Delimits rest) (hrest' : Delimits rest') (h : cs ++ rest = t.chars ++ rest') :
    ∃ w, t.word? = some w ∧ cs = w.toList ∧ rest = rest' := by
  cases hw : t.word? with
  | some w =>
    obtain ⟨hsymbols, -, -⟩ := isWord_of_word? ht hw
    rw [chars_of_word? hw] at h
    obtain ⟨htake, hdrop⟩ := takeWhile_append_of_stop hcs hrest
    obtain ⟨htake', hdrop'⟩ := takeWhile_append_of_stop hsymbols hrest'
    rw [h] at htake hdrop
    exact ⟨w, rfl, htake.symm.trans htake', hdrop.symm.trans hdrop'⟩
  | none =>
    obtain ⟨c, ds, hc, hmark⟩ := chars_of_word?_eq_none hw rest'
    obtain ⟨d, cs, rfl⟩ := List.exists_cons_of_ne_nil hne
    rw [hc, List.cons_append, List.cons.injEq] at h
    simp [← h.1, hcs d List.mem_cons_self] at hmark

/-- Whether the text of a type can be told from that of other types, whatever comes after them. -/
def Readable (t : Ty) : Prop :=
  ∀ u rest rest', u.Proper → Delimits rest → Delimits rest' →
    t.chars ++ rest = u.chars ++ rest' → t = u ∧ rest = rest'

theorem readable_of_word? (ht : t.Proper) (hw : t.word? = some w) : t.Readable := by
  intro u rest rest' hu hrest hrest' h
  obtain ⟨hsymbols, hne, -⟩ := isWord_of_word? ht hw
  rw [chars_of_word? hw] at h
  obtain ⟨w', hw', heq, hrests⟩ := word_append_eq hu hsymbols hne hrest hrest' h
  rw [← String.toList_inj.1 heq] at hw'
  exact ⟨eq_of_word? ht hu hw hw', hrests⟩

/-- A type that is written with marks has to be told from other such types only. -/
theorem readable_of_marks (ht : t.Proper)
    (hmarks : ∀ u rest rest', u.Proper → u.word? = none → t.chars ++ rest = u.chars ++ rest' →
      t = u ∧ rest = rest') : t.Readable := by
  intro u rest rest' hu hrest hrest' h
  cases hw : u.word? with
  | some w =>
    obtain ⟨heq, hrests⟩ := readable_of_word? hu hw t rest' rest ht hrest' hrest h.symm
    exact ⟨heq.symm, hrests.symm⟩
  | none => exact hmarks u rest rest' hu hw h

theorem argChars_append_inj {ts us : List Ty} (hts : ∀ t ∈ ts, t.Readable)
    (hus : ∀ u ∈ us, u.Proper) (h : argChars ts ++ ')' :: rest = argChars us ++ ')' :: rest') :
    ts = us ∧ rest = rest' := by
  induction ts generalizing us with
  | nil =>
    cases us with
    | nil => exact ⟨rfl, (List.cons.inj h).2⟩
    | cons u us =>
      rw [argChars_cons] at h
      cases (List.cons.inj h).1
  | cons t ts ih =>
    obtain ⟨ht, hts⟩ := List.forall_mem_cons.1 hts
    cases us with
    | nil =>
      rw [argChars_cons] at h
      cases (List.cons.inj h).1
    | cons u us =>
      obtain ⟨hu, hus'⟩ := List.forall_mem_cons.1 hus
      rw [argChars_cons, argChars_cons] at h
      obtain ⟨rfl, hrests⟩ := ht u _ _ hu (delimits_argChars ts rest) (delimits_argChars us rest')
        (List.cons.inj h).2
      obtain ⟨rfl, hrest⟩ := ih hts hus' hrests
      exact ⟨rfl, hrest⟩

theorem fn_ne_chars {b : Ty} (hb : b.Proper) (hrest : Delimits rest) (hrest' : Delimits rest') :
    'F' :: 'n' :: rest ≠ b.chars ++ rest' := by
  intro h
  have hword : ['F', 'n'] ++ rest = b.chars ++ rest' := h
  have hsymbols : ∀ c ∈ ['F', 'n'], isSymbolChar c := List.all_eq_true.1 rfl
  obtain ⟨w, hw, heq, -⟩ := word_append_eq hb hsymbols (List.cons_ne_nil _ _) hrest hrest' hword
  have hFn : "Fn".toList = w.toList := heq
  exact (isWord_of_word? hb hw).2.2 (String.toList_inj.1 hFn).symm

/-- **The text of a type can be read in one way only.** -/
theorem readable (ht : t.Proper) : t.Readable := by
  -- A type with marks has the mark that it begins with in common only with types of its own shape,
  -- except that a function and an applied type both begin with a parenthesis.
  induction t with
  | bool | str | int | effect | var | data => exact readable_of_word? ht rfl
  | vector e ih =>
    refine readable_of_marks ht fun u rest rest' hu hw h => ?_
    rw [chars_vector] at h
    cases u with
    | vector e' =>
      rw [chars_vector, List.cons.injEq] at h
      obtain ⟨rfl, hrests⟩ := ih ht e' _ _ hu (delimits_cons rfl _) (delimits_cons rfl _) h.2
      exact ⟨rfl, (List.cons.inj hrests).2⟩
    | set | map | fn | applied => simp [chars_set, chars_map, chars_fn, chars_applied] at h
    | _ => cases hw
  | set e ih =>
    refine readable_of_marks ht fun u rest rest' hu hw h => ?_
    rw [chars_set] at h
    cases u with
    | set e' =>
      rw [chars_set, List.cons.injEq, List.cons.injEq] at h
      obtain ⟨rfl, hrests⟩ := ih ht e' _ _ hu (delimits_cons rfl _) (delimits_cons rfl _) h.2.2
      exact ⟨rfl, (List.cons.inj hrests).2⟩
    | vector | map | fn | applied => simp [chars_vector, chars_map, chars_fn, chars_applied] at h
    | _ => cases hw
  | map k v ihk ihv =>
    obtain ⟨hk, hv⟩ := proper_map.1 ht
    refine readable_of_marks ht fun u rest rest' hu hw h => ?_
    rw [chars_map] at h
    cases u with
    | map k' v' =>
      obtain ⟨hk', hv'⟩ := proper_map.1 hu
      rw [chars_map, List.cons.injEq] at h
      obtain ⟨rfl, hvalues⟩ := ihk hk k' _ _ hk' (delimits_cons rfl _) (delimits_cons rfl _) h.2
      obtain ⟨rfl, hrests⟩ := ihv hv v' _ _ hv' (delimits_cons rfl _) (delimits_cons rfl _)
        (List.cons.inj hvalues).2
      exact ⟨rfl, (List.cons.inj hrests).2⟩
    | vector | set | fn | applied => simp [chars_vector, chars_set, chars_fn, chars_applied] at h
    | _ => cases hw
  | fn ps r ihps ihr =>
    have hparts : ∀ p ∈ ps ++ [r], p.Readable := by
      have hproper := proper_fn.1 ht
      rw [List.forall_mem_append, List.forall_mem_singleton] at hproper ⊢
      exact ⟨fun p hp => ihps p hp (hproper.1 p hp), ihr hproper.2⟩
    refine readable_of_marks ht fun u rest rest' hu hw h => ?_
    rw [chars_fn] at h
    cases u with
    | fn ps' r' =>
      rw [chars_fn] at h
      obtain ⟨heq, hrests⟩ := argChars_append_inj hparts (proper_fn.1 hu) (by simpa using h)
      obtain ⟨rfl, hr⟩ := List.append_inj' heq rfl
      cases hr
      exact ⟨rfl, hrests⟩
    | applied b as =>
      rw [chars_applied, List.cons.injEq] at h
      obtain ⟨hb, -⟩ := proper_applied.1 hu
      exact absurd h.2 (fn_ne_chars hb (delimits_argChars _ _) (delimits_argChars _ _))
    | vector | set | map => simp [chars_vector, chars_set, chars_map] at h
    | _ => cases hw
  | applied b as ihb ihas =>
    obtain ⟨hb, has⟩ := proper_applied.1 ht
    refine readable_of_marks ht fun u rest rest' hu hw h => ?_
    rw [chars_applied] at h
    cases u with
    | applied b' as' =>
      obtain ⟨hb', has'⟩ := proper_applied.1 hu
      rw [chars_applied, List.cons.injEq] at h
      obtain ⟨rfl, hargs⟩ := ihb hb b' _ _ hb' (delimits_argChars _ _) (delimits_argChars _ _) h.2
      obtain ⟨rfl, hrests⟩ := argChars_append_inj (fun a ha => ihas a ha (has a ha)) has' hargs
      exact ⟨rfl, hrests⟩
    | fn ps r =>
      rw [chars_fn, List.cons.injEq] at h
      exact absurd h.2.symm (fn_ne_chars hb (delimits_argChars _ _) (delimits_argChars _ _))
    | vector | set | map => simp [chars_vector, chars_set, chars_map] at h
    | _ => cases hw

/-- Types whose variables are named by their numbers are the same if their texts are. -/
theorem textWith_varName_inj (ht : t.Proper) (hu : u.Proper)
    (h : t.textWith varName = u.textWith varName) : t = u := by
  refine (readable ht u [] [] hu nofun nofun ?_).1
  rw [List.append_nil, List.append_nil, chars, h, chars]

/-! ## Alpha-equivalence -/

/-- The place of a variable among those of a type, in the order in which they first appear. -/
def place (t : Ty) (v : TyVar) : Nat := (Naming.see [] t).idxOf v

theorem injOn_place (t : Ty) : {v | v ∈ t.vars}.InjOn t.place := by
  intro v hv w _ heq
  have hseen : v ∈ Naming.see [] t := by simpa [Naming.see] using hv
  exact (List.idxOf_inj hseen).1 heq

/-- The type whose variables have their places as numbers. -/
def numbered (t : Ty) : Ty := t.rename t.place

theorem text_eq_textWith_numbered (t : Ty) : t.text = t.numbered.textWith varName :=
  (textWith_rename varName t).symm

theorem alphaEquivalent_numbered (t : Ty) : t.alphaEquivalent t.numbered = true :=
  alphaEquivalent_iff.2 ⟨t.place, injOn_place t, rfl⟩

theorem Proper.numbered (ht : t.Proper) : t.numbered.Proper := by
  rw [Proper, Ty.numbered, dataNames_rename]
  exact ht

/-- **Types have the same text exactly if they are alpha-equivalent.** -/
theorem text_eq_iff (ht : t.Proper) (hu : u.Proper) :
    t.text = u.text ↔ t.alphaEquivalent u = true := by
  constructor
  · intro h
    rw [text_eq_textWith_numbered, text_eq_textWith_numbered] at h
    have heq : t.numbered = u.numbered := textWith_varName_inj ht.numbered hu.numbered h
    refine alphaEquivalent_trans (alphaEquivalent_numbered t) ?_
    rw [heq]
    exact alphaEquivalent_symm (alphaEquivalent_numbered u)
  · intro h
    obtain ⟨f, hf, rfl⟩ := alphaEquivalent_iff.1 h
    exact (text_rename hf).symm

/-- Whether the variables of a type have different names, and no word for anything else in the text
of the type is one of these. -/
structure NamesApart (t : Ty) (name : TyVar → String) : Prop where
  injOn : {v | v ∈ t.vars}.InjOn name
  notReserved : ∀ v, name v ∉ reservedWords
  notData : ∀ v, name v ∉ t.dataNames

theorem namesApart_place (ht : t.Proper) : t.NamesApart (varName ∘ t.place) where
  injOn := varName_injective.comp_injOn (injOn_place t)
  notReserved v := varName_notMem_reservedWords (t.place v)
  notData v hv := (ht _ hv).ne_varName (t.place v) rfl

/-- **The text of a type says what the type is, up to the numbers of its variables.** Two types with
proper names have the same text exactly if they are alpha-equivalent. In the text the variables have
different names, which stand for nothing else. -/
theorem text_eq_iff_and_names_apart (ht : t.Proper) (hu : u.Proper) :
    (t.text = u.text ↔ t.alphaEquivalent u = true) ∧
    t.text = t.textWith (varName ∘ t.place) ∧ t.NamesApart (varName ∘ t.place) :=
  ⟨text_eq_iff ht hu, rfl, namesApart_place ht⟩

/-- A function of thirty parameters, one of which is in its result. -/
def thirtyParams (first result : TyVar) : Ty :=
  .fn ((List.range 30).map fun i => .var (first + i)) (.applied (.data "user/Box") [.var result])

/-- The numbers of the variables do not matter, but it does which one is in the result: the last
parameter is called `d1`, where the fourth is called `d`. -/
theorem text_eq_iff_and_names_apart_thirtyParams :
    (thirtyParams 0 29).text = (thirtyParams 7 36).text ∧
    (thirtyParams 0 29).text ≠ (thirtyParams 0 3).text ∧
    varName ((thirtyParams 0 29).place 29) = "d1" ∧ varName ((thirtyParams 0 29).place 3) = "d" ∧
    (thirtyParams 0 29).NamesApart (varName ∘ (thirtyParams 0 29).place) := by
  have hlast : (thirtyParams 0 29).Proper := by decide
  have hmoved : (thirtyParams 7 36).Proper := by decide
  have hfourth : (thirtyParams 0 3).Proper := by decide
  obtain ⟨hsame, -, hapart⟩ := text_eq_iff_and_names_apart hlast hmoved
  obtain ⟨hother, -, -⟩ := text_eq_iff_and_names_apart hlast hfourth
  refine ⟨hsame.2 (by decide), fun heq => ?_, by decide, by decide, hapart⟩
  exact absurd (hother.1 heq) (by decide)

end Ty

end TypedLisp
