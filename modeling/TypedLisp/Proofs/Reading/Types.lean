import TypedLisp.Proofs.Reading.RoundTrip
import TypedLisp.Proofs.TypeForms
import TypedLisp.Proofs.TypeTexts

/-!
# Reading the text of a type

The text of a type is the text of a form (`Ty.form`), which is read back as one form. Where all data
types of the type can be written by their full names and have as many arguments as they have
parameters (`Ty.WrittenIn`), that form denotes a type again. Analysis gives each name in it a
variable of its own (`TyNames.Faithful`), so that **the type that is read is alpha-equivalent to the
type that was written** (`Ty.text_reads_back`).
-/

namespace TypedLisp

open Lexer

/-! ## Types that can be written -/

/-- Whether a name can be written in a namespace for the data type that has it: it is divided where
it should be, and its qualifier stands for itself. -/
structure DataType.WrittenIn (d : DataType) (env : Env) (ns : String) : Prop where
  known : env.dataType? d.name = some d
  ns_isSymbol : IsSymbol d.name.ns
  name_isSymbol : IsSymbol d.name.name
  slash_notMem : '/' ∉ d.name.ns.toList
  resolves : env.resolveQualifier ns d.name.ns = some d.name.ns

namespace Ty

/-- The types that can be written in a namespace. They have no effects; a data type without
parameters stands on its own, and any other has all its arguments. -/
inductive WrittenIn (env : Env) (ns : String) : Ty → Prop where
  | bool : WrittenIn env ns .bool
  | str : WrittenIn env ns .str
  | int : WrittenIn env ns .int
  | var (v : TyVar) : WrittenIn env ns (.var v)
  | vector {e : Ty} (h : WrittenIn env ns e) : WrittenIn env ns (.vector e)
  | set {e : Ty} (h : WrittenIn env ns e) : WrittenIn env ns (.set e)
  | map {k v : Ty} (hk : WrittenIn env ns k) (hv : WrittenIn env ns v) : WrittenIn env ns (.map k v)
  | fn {ps : List Ty} {r : Ty} (hps : ∀ p ∈ ps, WrittenIn env ns p) (hr : WrittenIn env ns r) :
      WrittenIn env ns (.fn ps r)
  | data {d : DataType} (hd : d.WrittenIn env ns) (h : d.params = []) :
      WrittenIn env ns (.data d.name.text)
  | applied {d : DataType} {as : List Ty} (hd : d.WrittenIn env ns) (h : d.params ≠ [])
      (hlen : as.length = d.params.length) (has : ∀ a ∈ as, WrittenIn env ns a) :
      WrittenIn env ns (.applied (.data d.name.text) as)

theorem WrittenIn.rename {env : Env} {ns : String} {t : Ty} (h : t.WrittenIn env ns)
    (f : TyVar → TyVar) : (t.rename f).WrittenIn env ns := by
  induction h with
  | bool => exact .bool
  | str => exact .str
  | int => exact .int
  | var v => exact .var (f v)
  | vector _ ih => exact .vector ih
  | set _ ih => exact .set ih
  | map _ _ ihk ihv => exact .map ihk ihv
  | fn _ _ ihps ihr =>
    rw [rename_fn]
    exact .fn (List.forall_mem_map.2 ihps) ihr
  | data hd h => exact .data hd h
  | applied hd h hlen _ ih =>
    rw [rename_applied]
    exact .applied hd h (by rwa [List.length_map]) (List.forall_mem_map.2 ih)

/-! ## The form of a type -/

mutual

/-- The form that a type is written as, its variables named by their numbers. -/
def form : Ty → Form
  | .bool => .atom (.symbol "Bool") .nowhere
  | .str => .atom (.symbol "Str") .nowhere
  | .int => .atom (.symbol "Int") .nowhere
  | .effect => .atom (.symbol "EnvIO") .nowhere
  | .vector e => .seq .vector [e.form] .nowhere
  | .set e => .seq .set [e.form] .nowhere
  | .map k v => .seq .map [k.form, v.form] .nowhere
  | .fn ps r => .seq .list (.atom (.symbol "Fn") .nowhere :: (forms ps ++ [r.form])) .nowhere
  | .var v => .atom (.symbol (varName v)) .nowhere
  | .data n => .atom (.ofSymbol n) .nowhere
  | .applied b as => .seq .list (b.form :: forms as) .nowhere

/-- The forms that types are written as. -/
def forms : List Ty → List Form
  | [] => []
  | t :: ts => t.form :: forms ts

end

theorem forms_eq_map (ts : List Ty) : forms ts = ts.map form := by
  induction ts with
  | nil => rfl
  | cons t ts ih => rw [forms, ih, List.map_cons]

/-- A function is written as a list of a word, its parameters and its result. -/
theorem form_fn (ps : List Ty) (r : Ty) : (Ty.fn ps r).form =
    .seq .list (.atom (.symbol "Fn") .nowhere :: (ps ++ [r]).map form) .nowhere := by
  rw [form, forms_eq_map, List.map_append, List.map_cons, List.map_nil]

theorem form_applied (b : Ty) (as : List Ty) :
    (Ty.applied b as).form = .seq .list (b.form :: as.map form) .nowhere := by
  rw [form, forms_eq_map]

theorem text_ofSymbol (name : String) : (Atom.ofSymbol name).text = name := by
  obtain ⟨q, n, hname, -, -, -, hof⟩ | ⟨-, hof⟩ := Atom.ofSymbol_cases name
  · rw [hof]
    exact String.toList_injective (by simp [Atom.text, hname])
  · rw [hof, Atom.text]

/-- The text of the items of a list is that of the first one and, as arguments, that of the rest. -/
theorem intercalate_texts_forms (f : Form) {ts : List Ty}
    (h : ∀ t ∈ ts, t.form.text = t.textWith varName) :
    " ".intercalate (Form.texts (f :: ts.map form)) = f.text ++ argsWith varName ts := by
  induction ts generalizing f with
  | nil => simp [Form.texts, argsWith]
  | cons t ts ih =>
    obtain ⟨ht, hts⟩ := List.forall_mem_cons.1 h
    have hrest := ih t.form hts
    simp only [List.map_cons, Form.texts, String.intercalate_cons_cons] at hrest ⊢
    rw [hrest, ht, argsWith, String.append_assoc, String.append_assoc]

/-- **The text of a type is that of its form.** -/
theorem text_form (t : Ty) : t.form.text = t.textWith varName := by
  induction t with
  | bool | str | int | effect | var => rfl
  | data n => exact text_ofSymbol n
  | vector e ih | set e ih => simp [form, Form.text, Form.texts, textWith, ih, Bracket.opener,
      Bracket.closer, Closer.text]
  | map k v ihk ihv => simp [form, Form.text, Form.texts, textWith, ihk, ihv, Bracket.opener,
      Bracket.closer, Closer.text, String.append_assoc]
  | fn ps r ihps ihr =>
    have hparts : ∀ t ∈ ps ++ [r], t.form.text = t.textWith varName :=
      List.forall_mem_append.2 ⟨ihps, List.forall_mem_singleton.2 ihr⟩
    have hword : "(Fn " = "(" ++ "Fn" ++ " " := rfl
    rw [form_fn, Form.text, intercalate_texts_forms _ hparts, argsWith_concat, textWith, hword]
    simp only [Form.text, Atom.text, Bracket.opener, Bracket.closer, Closer.text,
      String.append_assoc]
  | applied b as ihb ihas =>
    rw [form_applied, Form.text, intercalate_texts_forms _ ihas, ihb, textWith]
    simp [Bracket.opener, Bracket.closer, Closer.text, String.append_assoc]

end Ty

/-! ## The form is read back -/

namespace Lexer

theorem isSymbol_of_all {name : String} {c : Char} {cs : List Char} (h : name.toList = c :: cs)
    (hstart : isSymbolStart c) (hcs : cs.all isSymbolChar)
    (hword : wordLexeme (c :: cs) = .token (.symbol name)) : IsSymbol name :=
  ⟨c, cs, h, hstart, List.all_eq_true.1 hcs, hword⟩

theorem wordLexeme_of_slash_mem {word : List Char} (h : '/' ∈ word) :
    wordLexeme word = .token (.symbol (String.ofList word)) := by
  unfold wordLexeme
  split
  · exact absurd h (by decide)
  · exact absurd h (by decide)
  · rename_i d ds
    have hslash : '/' ∈ d :: ds := by simpa using h
    have hdigits : (d :: ds).all Char.isDigit = false := by
      rw [Bool.eq_false_iff, ne_eq, List.all_eq_true]
      exact fun hall => absurd (hall '/' hslash) (by decide)
    rw [hdigits]
    rfl
  · rfl

theorem wordLexeme_of_isAlpha {c : Char} {ds : List Char} (hc : c.isAlpha)
    (hds : ∀ d ∈ ds, d.isDigit) :
    wordLexeme (c :: ds) = .token (.symbol (String.ofList (c :: ds))) := by
  unfold wordLexeme
  split
  · rename_i heq
    cases heq
    exact absurd (hds 'r' (by simp)) (by decide)
  · rename_i heq
    cases heq
    exact absurd (hds 'a' (by simp)) (by decide)
  · rename_i heq
    cases heq
    exact absurd hc (by decide)
  · rfl

theorem isSymbol_varName (i : Nat) : IsSymbol (varName i) := by
  have hletters : ∀ m < 26, (Char.ofNat ('a'.toNat + m)).isAlpha := by decide
  have hletter := hletters _ (Nat.mod_lt i (by decide))
  set ds := if i < 26 then [] else Nat.toDigits 10 (i / 26) with hds
  have hdigits : ∀ d ∈ ds, d.isDigit := by
    intro d hd
    rw [hds] at hd
    split at hd
    · cases hd
    · exact Nat.isDigit_of_mem_toDigits (by decide) (by decide) hd
  have hname : varName i = String.ofList (Char.ofNat ('a'.toNat + i % 26) :: ds) :=
    String.toList_injective (by rw [toList_varName, String.toList_ofList])
  refine ⟨_, ds, toList_varName i, by rw [isSymbolStart, hletter, Bool.true_or],
    fun d hd => ?_, ?_⟩
  · simp [isSymbolChar, Char.isAlphanum, hdigits d hd]
  · rw [wordLexeme_of_isAlpha hletter hdigits, hname]

theorem IsSymbol.slash {a b : String} (ha : IsSymbol a) (hb : IsSymbol b) :
    IsSymbol (a ++ "/" ++ b) := by
  obtain ⟨c, cs, hc, hstart, hcs, -⟩ := ha
  obtain ⟨d, ds, hd, hstart', hds, -⟩ := hb
  have hlist : (a ++ "/" ++ b).toList = c :: (cs ++ '/' :: d :: ds) := by simp [hc, hd]
  refine ⟨c, cs ++ '/' :: d :: ds, hlist, hstart, ?_, ?_⟩
  · refine List.forall_mem_append.2 ⟨hcs, List.forall_mem_cons.2 ⟨by decide, ?_⟩⟩
    exact List.forall_mem_cons.2 ⟨isSymbolChar_of_isSymbolStart hstart', hds⟩
  · rw [wordLexeme_of_slash_mem (by simp), ← hlist, String.ofList_toList]

end Lexer

theorem DataType.WrittenIn.ofSymbol_text {d : DataType} {env : Env} {ns : String}
    (h : d.WrittenIn env ns) :
    Atom.ofSymbol d.name.text = .qualified d.name.ns d.name.name := by
  have hne : ∀ {s : String}, IsSymbol s → s.toList ≠ [] := by
    rintro s ⟨c, cs, hs, -⟩
    rw [hs]
    exact List.cons_ne_nil _ _
  rw [Atom.ofSymbol_of_slash (q := d.name.ns.toList) (n := d.name.name.toList)
    (by simp [GlobalName.text]) h.slash_notMem (hne h.ns_isSymbol) (hne h.name_isSymbol),
    String.ofList_toList, String.ofList_toList]

/-- Whether an atom is that of a symbol token, divided as it should be. -/
structure Atom.Legible (a : Atom) : Prop where
  divided : a.Divided
  lexical : a.token.Lexical
  ne_str : ∀ s, a ≠ .str s

theorem Atom.legible_symbol {name : String} (h : IsSymbol name) (hslash : '/' ∉ name.toList) :
    (Atom.symbol name).Legible where
  divided q n hname _ := absurd (hname ▸ by simp) hslash
  lexical := by
    rw [Atom.token]
    split
    · trivial
    · exact h
  ne_str := nofun

theorem Atom.legible_qualified {q n : String} (hq : IsSymbol q) (hslash : '/' ∉ q.toList)
    (hn : IsSymbol n) : (Atom.qualified q n).Legible where
  divided := by
    obtain ⟨c, cs, hqs, -⟩ := hq
    obtain ⟨d, ds, hns, -⟩ := hn
    refine ⟨?_, hslash, ?_⟩
    · rintro rfl
      cases hqs
    · rintro rfl
      cases hns
  lexical := hq.slash hn
  ne_str := nofun

namespace Ty

theorem legible_of_mem_reservedWords {w : String} (h : w ∈ reservedWords) :
    (Atom.symbol w).Legible := by
  have hwords : ∀ w ∈ reservedWords, '/' ∉ w.toList ∧ w.toList.head?.any isSymbolStart ∧
      w.toList.tail.all isSymbolChar ∧ wordLexeme w.toList = .token (.symbol w) := by decide
  obtain ⟨hslash, hstart, htail, hlexeme⟩ := hwords w h
  cases hw : w.toList with
  | nil => simp [hw] at hstart
  | cons c cs =>
    rw [hw] at hstart htail hlexeme
    exact Atom.legible_symbol (isSymbol_of_all hw (by simpa using hstart) htail hlexeme) hslash

theorem legible_varName (v : TyVar) : (Atom.symbol (varName v)).Legible :=
  Atom.legible_symbol (isSymbol_varName v) fun h =>
    absurd (isAlphanum_of_mem_varName h) (by decide)

/-- The form of a type that can be written has only symbols in it, and its maps have a key and a
value. -/
theorem WrittenIn.form_legible {env : Env} {ns : String} {t : Ty} (h : t.WrittenIn env ns) :
    t.form.EvenMaps ∧ ∀ a ∈ t.form.atoms, a.Legible := by
  have hword : ∀ w ∈ reservedWords, (Form.atom (.symbol w) .nowhere).EvenMaps ∧
      ∀ a ∈ (Form.atom (.symbol w) .nowhere).atoms, a.Legible := fun w hw =>
    ⟨trivial, by simpa [Form.atoms] using legible_of_mem_reservedWords hw⟩
  have hseq : ∀ {b : Bracket} {items : List Form}, (b = .map → items.length % 2 = 0) →
      (∀ f ∈ items, f.EvenMaps ∧ ∀ a ∈ f.atoms, a.Legible) →
      (Form.seq b items .nowhere).EvenMaps ∧
        ∀ a ∈ (Form.seq b items .nowhere).atoms, a.Legible := by
    intro b items hlen hitems
    refine ⟨⟨hlen, Form.evenMapsAll_iff.2 fun f hf => (hitems f hf).1⟩, fun a ha => ?_⟩
    rw [Form.atoms, Form.atomsAll_eq_flatMap] at ha
    obtain ⟨f, hf, ha⟩ := List.mem_flatMap.1 ha
    exact (hitems f hf).2 a ha
  induction h with
  | bool | str | int => exact hword _ (by decide)
  | var v => exact ⟨trivial, by simpa [form, Form.atoms] using legible_varName v⟩
  | vector _ ih | set _ ih => exact hseq (by simp) (List.forall_mem_singleton.2 ih)
  | map _ _ ihk ihv =>
    exact hseq (by simp) (List.forall_mem_cons.2 ⟨ihk, List.forall_mem_singleton.2 ihv⟩)
  | fn _ _ ihps ihr =>
    rw [form_fn]
    refine hseq (by simp) (List.forall_mem_cons.2 ⟨hword _ (by decide), ?_⟩)
    exact List.forall_mem_map.2 (List.forall_mem_append.2 ⟨ihps, List.forall_mem_singleton.2 ihr⟩)
  | data hd _ =>
    rw [form, hd.ofSymbol_text]
    exact ⟨trivial, by
      simpa [Form.atoms] using
        Atom.legible_qualified hd.ns_isSymbol hd.slash_notMem hd.name_isSymbol⟩
  | applied hd _ _ _ ih =>
    rw [form_applied, form, hd.ofSymbol_text]
    refine hseq (by simp) (List.forall_mem_cons.2 ⟨⟨trivial, ?_⟩, List.forall_mem_map.2 ih⟩)
    simpa [Form.atoms] using
      Atom.legible_qualified hd.ns_isSymbol hd.slash_notMem hd.name_isSymbol

/-- The text of a type that can be written is read as one form, which is that of the type. -/
theorem WrittenIn.readAll_text {env : Env} {ns : String} {t : Ty} (h : t.WrittenIn env ns) :
    ∃ g, readAll (t.textWith varName) = .ok [g] ∧ g.bare = t.form.bare := by
  obtain ⟨heven, hatoms⟩ := h.form_legible
  rw [← text_form]
  refine Form.readAll_text_of_printable ⟨heven, fun a ha => (hatoms a ha).divided⟩
    (fun a ha => (hatoms a ha).lexical) fun s hs => ?_
  exact absurd rfl ((hatoms _ hs).ne_str s)

end Ty

/-! ## The form denotes the type -/

namespace Form

theorem exists_of_bare_eq_atom {g : Form} {a : Atom} {r : Range} (h : g.bare = (atom a r).bare) :
    ∃ r', g = .atom a r' := by
  cases g with
  | atom a' r' =>
    obtain ⟨rfl, -⟩ := Form.atom.inj h
    exact ⟨r', rfl⟩
  | seq => cases h

theorem exists_of_bare_eq_seq {g : Form} {b : Bracket} {items : List Form} {r : Range}
    (h : g.bare = (seq b items r).bare) :
    ∃ gs r', g = .seq b gs r' ∧ gs.map bare = items.map bare := by
  cases g with
  | atom => cases h
  | seq b' gs r' =>
    obtain ⟨rfl, hitems, -⟩ := Form.seq.inj h
    rw [bareAll_eq_map, bareAll_eq_map] at hitems
    exact ⟨gs, r', rfl, hitems⟩

end Form

namespace TyNames

/-- Whether each name has a variable of its own, and all of these are used up. -/
structure Faithful (n : TyNames) : Prop where
  bounded : n.Bounded
  inj : ∀ a b v, n.named.lookup a = some v → n.named.lookup b = some v → a = b

/-- Whether names that have a variable keep it. -/
def Extends (n' n : TyNames) : Prop :=
  ∀ a v, n.named.lookup a = some v → n'.named.lookup a = some v

/-- What is read for a variable. -/
def toFun (n : TyNames) (v : TyVar) : Ty := .var ((n.named.lookup (varName v)).getD 0)

/-- Whether all variables of a type have a name, and these make another type of it. -/
def Renames (n : TyNames) (t u : Ty) : Prop :=
  (∀ v ∈ t.vars, ∃ w, n.named.lookup (varName v) = some w) ∧ t.bind n.toFun = u

variable {n n' n'' : TyNames} {t u : Ty}

theorem Extends.trans (h : n'.Extends n) (h' : n''.Extends n') : n''.Extends n :=
  fun a v ha => h' a v (h a v ha)

theorem Renames.mono (h : n.Renames t u) (hn : n'.Extends n) : n'.Renames t u := by
  refine ⟨fun v hv => ?_, ?_⟩
  · obtain ⟨w, hw⟩ := h.1 v hv
    exact ⟨w, hn _ w hw⟩
  · rw [← h.2]
    refine Ty.bind_congr fun v hv => ?_
    obtain ⟨w, hw⟩ := h.1 v hv
    rw [toFun, toFun, hw, hn _ w hw]

theorem Faithful.next (h : n.Faithful) {name : String} (hname : n.named.lookup name = none) :
    Faithful ⟨(name, n.next) :: n.named, n.next + 1⟩ ∧
      Extends ⟨(name, n.next) :: n.named, n.next + 1⟩ n := by
  have hne : ∀ a v, n.named.lookup a = some v → n.next ≠ v := fun a v ha =>
    Nat.ne_of_gt (h.bounded _ (mem_of_lookup ha))
  refine ⟨⟨(n.takes_next name).bounded h.bounded, fun a b v ha hb => ?_⟩, fun a v ha => ?_⟩
  · rcases lookup_cons_eq_some.1 ha with ⟨hname, hv⟩ | ⟨-, ha⟩ <;>
      rcases lookup_cons_eq_some.1 hb with ⟨hname', hv'⟩ | ⟨-, hb⟩
    · rw [hname, hname']
    · exact absurd hv (hne b v hb)
    · exact absurd hv' (hne a v ha)
    · exact h.inj a b v ha hb
  · have hane : a ≠ name := fun heq => by simp [heq, hname] at ha
    exact (lookup_cons_of_ne hane _ _).trans ha

end TyNames

theorem DataType.WrittenIn.dataType?_eq {d : DataType} {env : Env} {ns : String}
    (h : d.WrittenIn env ns) :
    TypeContext.dataType? { env, ns } (.qualified d.name.ns d.name.name) =
      some (.data d.name.text, d.params.length) := by
  rw [TypeContext.dataType?, Env.resolveQualifiedDataType, h.resolves]
  show ((env.dataType? d.name).map _) = _
  rw [h.known]
  rfl

namespace Ty

/-- Whether every form of a type denotes it up to the names of variables: each name stands for one
variable. -/
def ReadsBack (c : TypeContext) (t : Ty) : Prop :=
  ∀ {g : Form} {n : TyNames}, g.bare = t.form.bare → n.Faithful →
    ∃ u n', (typeForm c g).run n = .ok (u, n') ∧ n'.Faithful ∧ n'.Extends n ∧ n'.Renames t u

theorem typeForms_readsBack {c : TypeContext} {ts : List Ty} (h : ∀ t ∈ ts, t.ReadsBack c)
    {gs : List Form} {n : TyNames} (hgs : gs.map Form.bare = (ts.map form).map Form.bare)
    (hn : n.Faithful) : ∃ us n', (typeForms c gs).run n = .ok (us, n') ∧ n'.Faithful ∧
      n'.Extends n ∧ (∀ t ∈ ts, ∀ v ∈ t.vars, ∃ w, n'.named.lookup (varName v) = some w) ∧
      ts.map (bind n'.toFun) = us := by
  induction ts generalizing gs n with
  | nil =>
    obtain rfl : gs = [] := by simpa using hgs
    exact ⟨[], n, rfl, hn, fun _ _ h => h, by simp, rfl⟩
  | cons t ts ih =>
    obtain ⟨ht, hts⟩ := List.forall_mem_cons.1 h
    obtain ⟨g, gs, rfl, hg, hgs⟩ := List.map_eq_cons_iff.1 hgs
    obtain ⟨u, n₁, hu, hn₁, hext₁, hren⟩ := ht hg hn
    obtain ⟨us, n', hus, hn', hext, hvars, hmap⟩ := ih hts hgs hn₁
    obtain ⟨huvars, hubind⟩ := hren.mono hext
    refine ⟨u :: us, n', ?_, hn', hext₁.trans hext, List.forall_mem_cons.2 ⟨huvars, hvars⟩, ?_⟩
    · simp only [typeForms, run_bind_eq_ok, run_pure_eq_ok]
      exact ⟨u, n₁, hu, us, n', hus, rfl, rfl⟩
    · rw [List.map_cons, hubind, hmap]

theorem readsBack_var {c : TypeContext} (hc : c.isOpen = true) (v : TyVar) :
    (Ty.var v).ReadsBack c := by
  intro g n hg hn
  obtain ⟨r, rfl⟩ := Form.exists_of_bare_eq_atom hg
  have hlower : isTyVarName (varName v) = true := by
    have hletters : ∀ m < 26, (Char.ofNat ('a'.toNat + m)).isLower := by decide
    rw [isTyVarName, toList_varName]
    exact hletters _ (Nat.mod_lt v (by decide))
  have hword : ∀ w ∈ reservedWords, varName v ≠ w := fun w hw heq =>
    varName_notMem_reservedWords v (heq ▸ hw)
  have hrun : typeForm c (.atom (.symbol (varName v)) r) = tyVarOf c (varName v) r := by
    rw [typeForm, if_neg (hword _ (by decide)), if_neg (hword _ (by decide)),
      if_neg (hword _ (by decide)), if_pos hlower]
  rw [hrun]
  cases hv : n.named.lookup (varName v) with
  | some w =>
    refine ⟨.var w, n, ?_, hn, fun _ _ h => h, by simp [vars, hv], by simp [TyNames.toFun, hv]⟩
    simp only [tyVarOf, run_bind_eq_ok, run_get_eq_ok]
    exact ⟨n, n, ⟨rfl, rfl⟩, by simp only [hv, run_pure_eq_ok, and_self]⟩
  | none =>
    obtain ⟨hn', hext⟩ := hn.next hv
    refine ⟨.var n.next, _, ?_, hn', hext, by simp [vars], by simp [TyNames.toFun]⟩
    simp only [tyVarOf, run_bind_eq_ok, run_get_eq_ok]
    refine ⟨n, n, ⟨rfl, rfl⟩, ?_⟩
    simp only [hv, hc, if_true, run_bind_eq_ok, run_set_eq_ok, run_pure_eq_ok]
    exact ⟨⟨⟩, _, rfl, trivial, rfl⟩

/-- **The form of a type that can be written denotes it**, up to the names of variables. -/
theorem WrittenIn.readsBack {env : Env} {ns : String} {t : Ty} (h : t.WrittenIn env ns) :
    t.ReadsBack { env, ns } := by
  induction h with
  | bool | str | int =>
    intro g n hg hn
    obtain ⟨r, rfl⟩ := Form.exists_of_bare_eq_atom hg
    exact ⟨_, n, rfl, hn, fun _ _ h => h, by simp [vars], rfl⟩
  | var v => exact readsBack_var rfl v
  | vector _ ih | set _ ih =>
    intro g n hg hn
    obtain ⟨gs, r, rfl, hgs⟩ := Form.exists_of_bare_eq_seq hg
    obtain ⟨item, _, rfl, hitem, hnil⟩ := List.map_eq_cons_iff.1 hgs
    obtain rfl := List.map_eq_nil_iff.1 hnil
    obtain ⟨u, n', hu, hn', hext, hvars, hbind⟩ := ih hitem hn
    refine ⟨_, n', ?_, hn', hext, hvars, by rw [bind, hbind]⟩
    simp only [typeForm, run_bind_eq_ok, run_pure_eq_ok]
    exact ⟨u, n', hu, rfl, rfl⟩
  | map _ _ ihk ihv =>
    intro g n hg hn
    obtain ⟨gs, r, rfl, hgs⟩ := Form.exists_of_bare_eq_seq hg
    obtain ⟨gk, _, rfl, hgk, hrest⟩ := List.map_eq_cons_iff.1 hgs
    obtain ⟨gv, _, rfl, hgv, hnil⟩ := List.map_eq_cons_iff.1 hrest
    obtain rfl := List.map_eq_nil_iff.1 hnil
    obtain ⟨k, n₁, hk, hn₁, hext₁, hrenk⟩ := ihk hgk hn
    obtain ⟨v, n', hv, hn', hext, hvars, hbind⟩ := ihv hgv hn₁
    obtain ⟨hkvars, hkbind⟩ := hrenk.mono hext
    refine ⟨.map k v, n', ?_, hn', hext₁.trans hext, ?_, by rw [bind, hkbind, hbind]⟩
    · simp only [typeForm, run_bind_eq_ok, run_pure_eq_ok]
      exact ⟨k, n₁, hk, v, n', hv, rfl, rfl⟩
    · rw [vars]
      exact List.forall_mem_append.2 ⟨hkvars, hvars⟩
  | @fn ps r _ _ ihps ihr =>
    intro g n hg hn
    rw [form_fn] at hg
    obtain ⟨gs, range, rfl, hgs⟩ := Form.exists_of_bare_eq_seq hg
    obtain ⟨head, args, rfl, hhead, hargs⟩ := List.map_eq_cons_iff.1 hgs
    obtain ⟨_, rfl⟩ := Form.exists_of_bare_eq_atom hhead
    obtain ⟨us, n', hus, hn', hext, hvars, hmap⟩ := typeForms_readsBack
      (List.forall_mem_append.2 ⟨ihps, List.forall_mem_singleton.2 ihr⟩) hargs hn
    obtain ⟨hps, hr⟩ := List.forall_mem_append.1 hvars
    refine ⟨.fn (ps.map (bind n'.toFun)) (r.bind n'.toFun), n', ?_, hn', hext, ?_, ?_⟩
    · have hrev : us.reverse = r.bind n'.toFun :: (ps.map (bind n'.toFun)).reverse := by
        rw [← hmap, List.map_append, List.reverse_append]
        rfl
      simp only [typeForm, Form.symbol?, if_true, run_bind_eq_ok]
      refine ⟨us, n', hus, ?_⟩
      simp only [hrev, List.reverse_reverse, run_pure_eq_ok, and_self]
    · intro v hv
      rcases List.mem_append.1 hv with hv | hv
      · obtain ⟨p, hp, hv⟩ := mem_varsAll.1 hv
        exact hps p hp v hv
      · exact hr r (by simp) v hv
    · rw [bind, bindAll_eq_map]
  | @data d hd hparams =>
    intro g n hg hn
    rw [form, hd.ofSymbol_text] at hg
    obtain ⟨r, rfl⟩ := Form.exists_of_bare_eq_atom hg
    refine ⟨.data d.name.text, n, ?_, hn, fun _ _ h => h, by simp [vars], rfl⟩
    rw [typeForm, bareDataType, hd.dataType?_eq, hparams]
    rfl
  | @applied d as hd _ hlen _ ih =>
    intro g n hg hn
    rw [form_applied, form, hd.ofSymbol_text] at hg
    obtain ⟨gs, r, rfl, hgs⟩ := Form.exists_of_bare_eq_seq hg
    obtain ⟨head, args, rfl, hhead, hargs⟩ := List.map_eq_cons_iff.1 hgs
    obtain ⟨_, rfl⟩ := Form.exists_of_bare_eq_atom hhead
    obtain ⟨us, n', hus, hn', hext, hvars, hmap⟩ := typeForms_readsBack ih hargs hn
    have harity : args.length = d.params.length := by
      rw [← hlen, ← List.length_map (f := Form.bare), hargs, List.length_map, List.length_map]
    refine ⟨.applied (.data d.name.text) us, n', ?_, hn', hext, ?_, ?_⟩
    · simp only [typeForm, headDataType, hd.dataType?_eq, Form.symbol?,
        reduceCtorEq, if_false, run_bind_eq_ok, run_pure_eq_ok]
      refine ⟨_, n, ⟨rfl, rfl⟩, ?_⟩
      simp only [harity, if_true, run_bind_eq_ok, run_pure_eq_ok]
      exact ⟨us, n', hus, rfl, rfl⟩
    · intro v hv
      obtain ⟨a, ha, hv⟩ := mem_varsAll.1 (by simpa [vars] using hv)
      exact hvars a ha v hv
    · rw [bind, bindAll_eq_map, hmap]
      rfl

/-- **A type that can be written reads back from its text**: the text is read as one form, and
wherever the supply stands, the form denotes a type that is alpha-equivalent to the one written. -/
theorem text_reads_back {env : Env} {ns : String} {t : Ty} (h : t.WrittenIn env ns) :
    ∃ f, readAll t.text = .ok [f] ∧ ∀ s : Supply, ∃ u s',
      (analyseType env ns f).run s = .ok (u, s') ∧ u.alphaEquivalent t = true := by
  have hnumbered : t.numbered.WrittenIn env ns := h.rename t.place
  obtain ⟨f, hf, hbare⟩ := hnumbered.readAll_text
  rw [text_eq_textWith_numbered]
  refine ⟨f, hf, fun s => ?_⟩
  obtain ⟨u, n, hu, hn, -, hvars, hbind⟩ := hnumbered.readsBack hbare
    (n := { next := s.tyVar }) ⟨nofun, nofun⟩
  refine ⟨u, { s with tyVar := n.next }, ?_, ?_⟩
  · simp only [analyseType, run_bind_eq_ok, run_get_eq_ok, run_set_eq_ok, run_pure_eq_ok,
      run_liftM_eq_ok]
    exact ⟨s, s, ⟨rfl, rfl⟩, (u, n), s, ⟨hu, rfl⟩, ⟨⟩, _, rfl, rfl, rfl⟩
  · refine alphaEquivalent_symm (alphaEquivalent_trans (alphaEquivalent_numbered t) ?_)
    refine alphaEquivalent_iff.2 ⟨_, fun x hx y hy hxy => ?_, hbind⟩
    obtain ⟨x', hx'⟩ := hvars x hx
    obtain ⟨y', hy'⟩ := hvars y hy
    obtain rfl : x' = y' := by simpa [hx', hy'] using hxy
    exact varName_injective (hn.inj _ _ x' hx' hy')

/-- An environment with the data types `user/Box` of one parameter and `lib/a/b` of none. -/
def boxEnv : Env where
  namespaces := [("user", {}), ("lib", {})]
  dataTypes := [(⟨"user", "Box"⟩, ⟨⟨"user", "Box"⟩, [0], []⟩),
    (⟨"lib", "a/b"⟩, ⟨⟨"lib", "a/b"⟩, [], []⟩)]

/-- A function of thirty variables to maps of `lib/a/b` to boxes of the last variable, which is
called `d1`. -/
def boxOfLast : Ty :=
  .fn ((List.range 30).map .var) (.map (.data "lib/a/b") (.applied (.data "user/Box") [.var 29]))

theorem boxOfLast_writtenIn : boxOfLast.WrittenIn boxEnv "user" := by
  have hbox : (⟨⟨"user", "Box"⟩, [0], []⟩ : DataType).WrittenIn boxEnv "user" :=
    ⟨rfl, isSymbol_of_all rfl rfl rfl rfl, isSymbol_of_all rfl rfl rfl rfl, by decide, rfl⟩
  have hab : (⟨⟨"lib", "a/b"⟩, [], []⟩ : DataType).WrittenIn boxEnv "user" :=
    ⟨rfl, isSymbol_of_all rfl rfl rfl rfl, isSymbol_of_all rfl rfl rfl rfl, by decide, rfl⟩
  refine .fn (List.forall_mem_map.2 fun i _ => .var i) (.map (.data hab rfl) ?_)
  exact .applied hbox (List.cons_ne_nil _ _) rfl (List.forall_mem_singleton.2 (.var 29))

theorem text_reads_back_boxOfLast : boxOfLast.WrittenIn boxEnv "user" ∧
    ∃ f, readAll boxOfLast.text = .ok [f] ∧ ∀ s : Supply, ∃ u s',
      (analyseType boxEnv "user" f).run s = .ok (u, s') ∧ u.alphaEquivalent boxOfLast = true :=
  ⟨boxOfLast_writtenIn, text_reads_back boxOfLast_writtenIn⟩

end Ty

end TypedLisp
