import Mathlib.Data.List.Nodup
import TypedLisp.Proofs.Namespaces.Integrity

/-!
# What the options of a namespace say

The options of an `ns` form are entries of a map, of which some may have the same key. The tables of
the namespace hold exactly what the last option of each kind says, and of an alias the last target
(`NsTables.Says`). So everything that is written is installed where nothing replaces anything
(`analyse_ns_installs`), but an alias can be lost to a later option, and can be given two targets at
once (`repeated_aliases_are_lost`).
-/

namespace TypedLisp

variable {what name ns source : String} {f : Form} {env : Env} {entry : Form × Form}
  {es list list' : List (String × GlobalName)} {d : NsDecl} {options : List (Form × Form)}

/-! ## What is written -/

namespace Form

/-- The entries of a form that is a map. -/
def entries : Form → List (Form × Form)
  | .seq .map items _ => pairs items
  | _ => []

/-- The items of a form that is a vector. -/
def elements : Form → List Form
  | .seq .vector items _ => items
  | _ => []

/-- The name that an item of a vector gives to what has it in a namespace or package. -/
def nameFrom (source : String) (item : Form) : Option (String × GlobalName) :=
  item.symbol?.map fun name => (name, ⟨source, name⟩)

/-- The alias that an entry is, with its target. -/
def aliasOf (entry : Form × Form) : Option (String × String) :=
  entry.1.symbol?.bind fun name => entry.2.symbol?.map fun target => (name, target)

/-- The aliases of an option. -/
def aliasesIn (option : Form) : List (String × String) := option.entries.filterMap aliasOf

/-- The names that an entry takes from a namespace or a package. -/
def namesOf (entry : Form × Form) : List (String × GlobalName) :=
  (entry.1.symbol?.map fun source => entry.2.elements.filterMap (nameFrom source)).getD []

/-- The names of an option, with what they stand for. -/
def namesIn (option : Form) : List (String × GlobalName) := option.entries.flatMap namesOf

end Form

section Options

variable {α : Type} (key : String) (readOption : Form → List (String × α))

/-- The options of a key, in the order in which they are written. -/
def optionsOf (entries : List (Form × Form)) : List Form :=
  (entries.filter fun e => e.1.symbol? = some key).map Prod.snd

/-- What all options of a key say. -/
def said (entries : List (Form × Form)) : List (String × α) :=
  (optionsOf key entries).flatMap readOption

/-- What the last option of a key says. -/
def saidLast (entries : List (Form × Form)) : List (String × α) :=
  ((optionsOf key entries).getLast?.map readOption).getD []

end Options

/-- Whether no name stands for two things. -/
def OneMeaning {α : Type} (es : List (String × α)) : Prop :=
  ∀ e ∈ es, ∀ e' ∈ es, e.1 = e'.1 → e.2 = e'.2

theorem OneMeaning.of_table {α : Type} {es : List (String × α)} {t : Table String α}
    (h : ∀ e ∈ es, t.get? e.1 = some e.2) : OneMeaning es := fun e he e' he' hkey =>
  Option.some.inj ((h e he).symm.trans ((congrArg t.get? hkey).trans (h e' he')))

/-- Whether tables hold what the last options say and nothing else. Of an alias that is given more
than one target, the last counts. -/
structure NsTables.Says (T : NsTables) (options : List (Form × Form)) : Prop where
  aliases : ∀ a, T.aliases.get? a = (saidLast "aliases" Form.aliasesIn options).reverse.lookup a
  refers : ∀ x g, T.refers.get? x = some g ↔ (x, g) ∈ saidLast "refers" Form.namesIn options
  imports : ∀ x g, T.imports.get? x = some g ↔ (x, g) ∈ saidLast "imports" Form.namesIn options

/-- Whether nothing that the options say is replaced by what they say later. -/
structure Unreplaced (options : List (Form × Form)) : Prop where
  aliases : ∀ e ∈ said "aliases" Form.aliasesIn options,
    (saidLast "aliases" Form.aliasesIn options).reverse.lookup e.1 = some e.2
  refers : ∀ e ∈ said "refers" Form.namesIn options, e ∈ saidLast "refers" Form.namesIn options
  imports : ∀ e ∈ said "imports" Form.namesIn options, e ∈ saidLast "imports" Form.namesIn options

/-- Whether all that the options say is so in a namespace: an alias stands for its target, a referred
name for the var of the namespace that it is referred from, unless there is a var of its own, and an
imported name for the module of the package. -/
structure InstalledIn (env : Env) (ns : String) (options : List (Form × Form)) : Prop where
  aliases : ∀ e ∈ said "aliases" Form.aliasesIn options, env.resolveQualifier ns e.1 = some e.2
  refers : ∀ e ∈ said "refers" Form.namesIn options, env.var? ⟨ns, e.1⟩ = none →
    ∃ v, env.var? e.2 = some v ∧ env.resolveVar ns e.1 = some v
  imports : ∀ e ∈ said "imports" Form.namesIn options, env.resolveImport ns e.1 = some e.2

/-! ## Lists of entries -/

section Entries

variable {κ α : Type} [DecidableEq κ]

theorem lookup_eq_some_iff_mem {l : List (κ × α)} (h : (l.map Prod.fst).Nodup) {k : κ} {a : α} :
    l.lookup k = some a ↔ (k, a) ∈ l := by
  refine ⟨mem_of_lookup, fun hmem => ?_⟩
  obtain ⟨b, hb⟩ := exists_lookup_of_mem_keys (List.mem_map_of_mem hmem)
  have heq := List.inj_on_of_nodup_map h (mem_of_lookup hb) hmem rfl
  rw [hb, (Prod.mk.inj heq).2]

theorem Table.get?_ofList (es : List (κ × α)) (k : κ) :
    (Table.ofList es).get? k = es.reverse.lookup k := by
  have hfoldl (t : Table κ α) : (es.foldl (fun t e => t.insert e.1 e.2) t).get? k =
      (es.reverse.lookup k).or (t.get? k) := by
    induction es generalizing t with
    | nil => rfl
    | cons e es ih =>
      rw [List.foldl_cons, ih, List.reverse_cons, List.lookup_append, Option.or_assoc]
      congr 1
      by_cases hk : k = e.1
      · rw [hk, Table.get?_insert_self, List.lookup_cons_self, Option.some_or]
      · rw [Table.get?_insert_of_ne hk, lookup_cons_of_ne hk]
        rfl
  exact (hfoldl []).trans (Option.or_none ..)

/-- What is known of entries that are gathered from what is said: they are the same, each name is
there once, and it is that of what it stands for. -/
structure Gathers (es list : List (String × GlobalName)) : Prop where
  mem_iff : ∀ e, e ∈ list ↔ e ∈ es
  nodup : (list.map Prod.fst).Nodup
  name_eq : ∀ e ∈ list, e.2.name = e.1

namespace Gathers

variable {g : GlobalName}

theorem nil : Gathers [] [] := ⟨fun _ => Iff.rfl, List.nodup_nil, nofun⟩

theorem add (h : Gathers es list) (hnew : list.lookup name = none) :
    Gathers (es ++ [(name, ⟨source, name⟩)]) (list ++ [(name, ⟨source, name⟩)]) where
  mem_iff e := by rw [List.mem_append, List.mem_append, h.mem_iff]
  nodup := by
    rw [List.map_append, List.nodup_append]
    refine ⟨h.nodup, by simp, fun a ha b hb hab => ?_⟩
    obtain ⟨g, hg⟩ := exists_lookup_of_mem_keys ha
    obtain rfl : b = name := by simpa using hb
    rw [hab, hnew] at hg
    cases hg
  name_eq := List.forall_mem_append.2 ⟨h.name_eq, List.forall_mem_singleton.2 rfl⟩

theorem again (h : Gathers es list) (hold : list.lookup name = some g) (hsource : g.ns = source) :
    Gathers (es ++ [(name, ⟨source, name⟩)]) list where
  mem_iff e := by
    have hmem := mem_of_lookup hold
    have hname : g.name = name := h.name_eq _ hmem
    obtain rfl : g = ⟨source, name⟩ := by rw [← hsource, ← hname]
    rw [List.mem_append, ← h.mem_iff, List.mem_singleton]
    exact ⟨.inl, fun he => he.elim id fun he => he ▸ hmem⟩
  nodup := h.nodup
  name_eq := h.name_eq

theorem oneMeaning (h : Gathers es list) : OneMeaning es := fun e he e' he' hkey =>
  congrArg Prod.snd <|
    List.inj_on_of_nodup_map h.nodup ((h.mem_iff e).2 he) ((h.mem_iff e').2 he') hkey

theorem get?_ofList_eq_some (h : Gathers es list) {x : String} :
    (Table.ofList list).get? x = some g ↔ (x, g) ∈ es := by
  have hnodup : (list.reverse.map Prod.fst).Nodup := by
    rw [List.map_reverse, List.nodup_reverse]
    exact h.nodup
  rw [Table.get?_ofList, lookup_eq_some_iff_mem hnodup, List.mem_reverse, h.mem_iff]

end Gathers

end Entries

/-! ## What is gathered -/

section Gathering

variable {ε α β : Type}

/-- What holds of nothing and the start, and is kept by every step that succeeds, holds of all that
is taken in and the end. -/
theorem foldlM_ok_prefix_induction {P : List α → β → Prop} {step : β → α → Except ε β}
    (hstep : ∀ pre a b b', P pre b → step b a = .ok b' → P (pre ++ [a]) b') {as : List α} {b b' : β}
    (hb : P [] b) (h : as.foldlM step b = .ok b') : P as b' := by
  have hall (pre : List α) (hpre : P pre b) : P (pre ++ as) b' := by
    clear hb
    induction as generalizing pre b with
    | nil =>
      cases h
      rwa [List.append_nil]
    | cons a as ih =>
      rw [List.foldlM_cons, bind_eq_ok] at h
      obtain ⟨b₁, hb₁, h⟩ := h
      rw [← List.singleton_append, ← List.append_assoc]
      exact ih h _ (hstep pre a b b₁ hpre hb₁)
  exact hall [] hb

theorem filterMap_of_mapM_eq_ok {f : α → Except ε β} {g : α → Option β}
    (hfg : ∀ a b, f a = .ok b → g a = some b) {as : List α} {bs : List β}
    (h : as.mapM f = .ok bs) : as.filterMap g = bs := by
  induction as generalizing bs with
  | nil =>
    cases h
    rfl
  | cons a as ih =>
    simp only [List.mapM_cons, bind_eq_ok] at h
    obtain ⟨b, hb, bs', hbs', h⟩ := h
    cases h
    rw [List.filterMap_cons_some (hfg a b hb), ih hbs']

end Gathering

theorem symbol?_of_symbolOr (h : symbolOr what f = .ok name) : f.symbol? = some name := by
  unfold symbolOr at h
  split at h <;> cases h
  assumption

theorem symbol?_of_knownNs (h : knownNs env f = .ok ns) : f.symbol? = some ns := by
  simp only [knownNs, bind_eq_ok] at h
  obtain ⟨name, hname, h⟩ := h
  split at h
  · cases h
    exact symbol?_of_symbolOr hname
  · cases h

theorem elements_of_vectorItems {items : List Form} (h : vectorItems what f = .ok items) :
    f.elements = items := by
  unfold vectorItems at h
  split at h <;> cases h
  rfl

theorem entries_of_mapEntries {es : List (Form × Form)} (h : mapEntries what f = .ok es) :
    f.entries = es := by
  unfold mapEntries at h
  split at h <;> cases h
  rfl

theorem aliasOf_of_aliasEntry {e : String × String} (h : aliasEntry env entry = .ok e) :
    Form.aliasOf entry = some e := by
  simp only [aliasEntry, bind_eq_ok] at h
  obtain ⟨name, hname, target, htarget, h⟩ := h
  split at h
  · cases h
  · cases h
    rw [Form.aliasOf, symbol?_of_symbolOr hname, symbol?_of_knownNs htarget]
    rfl

theorem Form.filterMap_nameFrom (h : f.symbol? = some name) (source : String) :
    [f].filterMap (nameFrom source) = [(name, ⟨source, name⟩)] := by
  simp [nameFrom, h]

theorem addRefer_gathers (hlist : Gathers es list) (h : addRefer env source list f = .ok list') :
    Gathers (es ++ [f].filterMap (Form.nameFrom source)) list' := by
  simp only [addRefer, bind_eq_ok] at h
  obtain ⟨name, hname, h⟩ := h
  rw [Form.filterMap_nameFrom (symbol?_of_symbolOr hname)]
  split at h
  · cases h
  · split at h
    · rename_i hnew
      cases h
      exact hlist.add hnew
    · rename_i hold
      split at h
      · rename_i hsource
        cases h
        exact hlist.again hold hsource
      · cases h

theorem addImport_gathers {package : String} (hlist : Gathers es list)
    (h : addImport package list f = .ok list') :
    Gathers (es ++ [f].filterMap (Form.nameFrom package)) list' := by
  simp only [addImport, bind_eq_ok] at h
  obtain ⟨name, hname, h⟩ := h
  rw [Form.filterMap_nameFrom (symbol?_of_symbolOr hname)]
  split at h
  · cases h
  · split at h
    · cases h
    · rename_i hnew
      cases h
      exact hlist.add (Option.not_isSome_iff_eq_none.1 hnew)

theorem Gathers.foldlM_elements
    {step : List (String × GlobalName) → Form → Except AnalysisError (List (String × GlobalName))}
    (hstep : ∀ es list f list', Gathers es list → step list f = .ok list' →
      Gathers (es ++ [f].filterMap (Form.nameFrom source)) list')
    (hsource : entry.1.symbol? = some source) (hlist : Gathers es list)
    (h : entry.2.elements.foldlM step list = .ok list') :
    Gathers (es ++ Form.namesOf entry) list' := by
  have hall := foldlM_ok_prefix_induction (b := list)
    (P := fun pre list => Gathers (es ++ pre.filterMap (Form.nameFrom source)) list)
    (fun pre f list list' hlist h => by
      rw [List.filterMap_append, ← List.append_assoc]
      exact hstep _ _ _ _ hlist h) (by simpa using hlist) h
  simpa [Form.namesOf, hsource] using hall

theorem addRefers_gathers (hlist : Gathers es list) (h : addRefers env list entry = .ok list') :
    Gathers (es ++ Form.namesOf entry) list' := by
  simp only [addRefers, bind_eq_ok] at h
  obtain ⟨source, hsource, items, hitems, h⟩ := h
  rw [← elements_of_vectorItems hitems] at h
  exact hlist.foldlM_elements (fun _ _ _ _ => addRefer_gathers) (symbol?_of_knownNs hsource) h

theorem addImports_gathers (hlist : Gathers es list) (h : addImports list entry = .ok list') :
    Gathers (es ++ Form.namesOf entry) list' := by
  simp only [addImports, bind_eq_ok] at h
  obtain ⟨package, hpackage, items, hitems, h⟩ := h
  rw [← elements_of_vectorItems hitems] at h
  exact hlist.foldlM_elements (fun _ _ _ _ => addImport_gathers) (symbol?_of_symbolOr hpackage) h

theorem Gathers.foldlM_entries {step : List (String × GlobalName) → Form × Form →
      Except AnalysisError (List (String × GlobalName))} {option : Form}
    (hstep : ∀ es list entry list', Gathers es list → step list entry = .ok list' →
      Gathers (es ++ Form.namesOf entry) list') (h : option.entries.foldlM step [] = .ok list) :
    Gathers option.namesIn list :=
  foldlM_ok_prefix_induction (b := [])
    (P := fun pre list => Gathers (pre.flatMap Form.namesOf) list)
    (fun pre entry list list' hlist h => by
      rw [List.flatMap_append, List.flatMap_singleton]
      exact hstep _ _ _ _ hlist h) .nil h

/-! ## The options together -/

section

variable {α : Type} {key : String}

theorem optionsOf_concat_of_eq (h : entry.1.symbol? = some key) :
    optionsOf key (options ++ [entry]) = optionsOf key options ++ [entry.2] := by
  simp [optionsOf, h]

theorem optionsOf_concat_of_ne (h : entry.1.symbol? ≠ some key) :
    optionsOf key (options ++ [entry]) = optionsOf key options := by
  simp [optionsOf, h]

theorem saidLast_concat_of_eq (h : entry.1.symbol? = some key)
    (readOption : Form → List (String × α)) :
    saidLast key readOption (options ++ [entry]) = readOption entry.2 := by
  simp [saidLast, optionsOf_concat_of_eq h]

theorem saidLast_concat_of_ne (h : entry.1.symbol? ≠ some key)
    (readOption : Form → List (String × α)) :
    saidLast key readOption (options ++ [entry]) = saidLast key readOption options := by
  simp [saidLast, optionsOf_concat_of_ne h]

/-- What there is to say of the options of a key taken in so far and the names that they leave: the
names are those of the last one, and none of the options gives a name two meanings. -/
structure TakesNames (key : String) (options : List (Form × Form))
    (list : List (String × GlobalName)) : Prop where
  gathers : Gathers (saidLast key Form.namesIn options) list
  oneMeaning : ∀ o ∈ optionsOf key options, OneMeaning o.namesIn

namespace TakesNames

theorem nil : TakesNames key [] [] := ⟨.nil, nofun⟩

theorem of_ne (h : TakesNames key options list) (hkey : entry.1.symbol? ≠ some key) :
    TakesNames key (options ++ [entry]) list where
  gathers := by
    rw [saidLast_concat_of_ne hkey]
    exact h.gathers
  oneMeaning := by
    rw [optionsOf_concat_of_ne hkey]
    exact h.oneMeaning

theorem of_eq (h : TakesNames key options list) (hkey : entry.1.symbol? = some key)
    (hlist : Gathers entry.2.namesIn list') : TakesNames key (options ++ [entry]) list' where
  gathers := by
    rw [saidLast_concat_of_eq hkey]
    exact hlist
  oneMeaning := by
    rw [optionsOf_concat_of_eq hkey]
    exact List.forall_mem_append.2 ⟨h.oneMeaning, List.forall_mem_singleton.2 hlist.oneMeaning⟩

end TakesNames

end

/-- What there is to say of the options taken in so far and the declaration that they make. -/
structure NsDecl.Takes (d : NsDecl) (name : String) (options : List (Form × Form)) : Prop where
  ns_eq : d.ns = name
  aliases : d.aliases = saidLast "aliases" Form.aliasesIn options
  refers : TakesNames "refers" options d.refers
  imports : TakesNames "imports" options d.imports

/-- **One option**: it takes the place of what the options of its kind said before. -/
theorem nsOption_takes {d' : NsDecl} (hd : d.Takes name options)
    (h : nsOption env d entry = .ok d') : d'.Takes name (options ++ [entry]) := by
  unfold nsOption at h
  split at h
  · rename_i hkey
    simp only [bind_eq_ok] at h
    obtain ⟨es, hes, aliases, haliases, h⟩ := h
    cases h
    rw [← entries_of_mapEntries hes] at haliases
    refine ⟨hd.ns_eq, ?_, hd.refers.of_ne (by simp [hkey]), hd.imports.of_ne (by simp [hkey])⟩
    rw [saidLast_concat_of_eq hkey]
    exact (filterMap_of_mapM_eq_ok (fun _ _ => aliasOf_of_aliasEntry) haliases).symm
  · rename_i hkey
    simp only [bind_eq_ok] at h
    obtain ⟨es, hes, refers, hrefers, h⟩ := h
    cases h
    rw [← entries_of_mapEntries hes] at hrefers
    refine ⟨hd.ns_eq, ?_,
      hd.refers.of_eq hkey (.foldlM_entries (fun _ _ _ _ => addRefers_gathers) hrefers),
      hd.imports.of_ne (by simp [hkey])⟩
    rw [saidLast_concat_of_ne (by simp [hkey])]
    exact hd.aliases
  · rename_i hkey
    simp only [bind_eq_ok] at h
    obtain ⟨es, hes, imports, himports, h⟩ := h
    cases h
    rw [← entries_of_mapEntries hes] at himports
    refine ⟨hd.ns_eq, ?_, hd.refers.of_ne (by simp [hkey]),
      hd.imports.of_eq hkey (.foldlM_entries (fun _ _ _ _ => addImports_gathers) himports)⟩
    rw [saidLast_concat_of_ne (by simp [hkey])]
    exact hd.aliases
  · cases h

/-- **All options.** -/
theorem nsForm_takes {name options : Form} {r : Range} (h : nsForm env [name, options] r = .ok d) :
    ∃ n, name.symbol? = some n ∧ d.Takes n options.entries := by
  simp only [nsForm, bind_eq_ok] at h
  obtain ⟨n, hn, h⟩ := h
  split at h
  · have hstart : NsDecl.Takes { ns := n } n [] := ⟨rfl, rfl, .nil, .nil⟩
    exact ⟨n, symbol?_of_symbolOr hn, foldlM_ok_prefix_induction
      (P := fun options d => d.Takes n options) (fun _ _ _ _ => nsOption_takes) hstart h⟩
  · cases h

theorem NsDecl.Takes.says (h : d.Takes name options) : (NsTables.ofDecl d).Says options where
  aliases a := by
    rw [← h.aliases]
    exact Table.get?_ofList d.aliases a
  refers _ _ := h.refers.gathers.get?_ofList_eq_some
  imports _ _ := h.imports.gathers.get?_ofList_eq_some

/-! ## What the namespace then has -/

theorem Env.tables?_withNs (e : Env) (d : NsDecl) : (e.withNs d).tables? d.ns = some (.ofDecl d) :=
  Table.get?_insert_self ..

theorem NsTables.Says.installedIn (h : (NsTables.ofDecl d).Says options) (hd : d.Grounded env)
    (hkept : Unreplaced options) :
    InstalledIn (env.withNs d) d.ns options where
  aliases e he := by
    have hget := (h.aliases e.1).trans (hkept.aliases e he)
    simp only [Env.resolveQualifier, Env.tables?_withNs, Option.bind_some, hget]
  refers e he hown := by
    have hget := (h.refers e.1 e.2).2 (hkept.refers e he)
    obtain ⟨v, hv⟩ := (hd.refers _ (Table.mem_of_get?_ofList hget)).2
    refine ⟨v, hv, ?_⟩
    unfold Env.resolveVar Env.resolveIn
    rw [show (env.withNs d).vars.get? ⟨d.ns, e.1⟩ = none from hown]
    simp only [Env.tables?_withNs, Option.bind_some, hget]
    exact hv
  imports e he := by
    have hget := (h.imports e.1 e.2).2 (hkept.imports e he)
    simp only [Env.resolveImport, Env.tables?_withNs, Option.bind_some, hget]

theorem NsTables.Says.oneMeaning {T : NsTables} (h : T.Says options) (hkept : Unreplaced options) :
    OneMeaning (said "aliases" Form.aliasesIn options) ∧
      OneMeaning (said "refers" Form.namesIn options) ∧
      OneMeaning (said "imports" Form.namesIn options) :=
  ⟨.of_table fun e he => (h.aliases _).trans (hkept.aliases e he),
    .of_table fun e he => (h.refers _ _).2 (hkept.refers e he),
    .of_table fun e he => (h.imports _ _).2 (hkept.imports e he)⟩

/-- **What an `ns` form installs.** Let analysis accept the form `(ns name options)`. The tables of
the namespace then hold what the last option of each kind says and nothing else. So where nothing is
replaced by something that is written later, all that is written is installed, and no name is given
two meanings. No `refers` and no `imports` on its own ever gives a name two meanings. -/
theorem analyse_ns_installs {head name options : Form} {r : Range} {s s' : Supply} {e : Expr Unit}
    (hhead : head.symbol? = some "ns")
    (h : (analyse env ns (.seq .list [head, name, options] r)).run s = .ok (e, s')) :
    ∃ d note, e = .declare (.ns d) note ∧ name.symbol? = some d.ns ∧
      (NsTables.ofDecl d).Says options.entries ∧
      (Unreplaced options.entries →
        InstalledIn (env.withNs d) d.ns options.entries ∧
        OneMeaning (said "aliases" Form.aliasesIn options.entries) ∧
        OneMeaning (said "refers" Form.namesIn options.entries) ∧
        OneMeaning (said "imports" Form.namesIn options.entries)) ∧
      ∀ key ∈ ["refers", "imports"], ∀ o ∈ optionsOf key options.entries,
        OneMeaning o.namesIn := by
  simp only [analyse, hhead, run_bind_eq_ok, run_pure_eq_ok, run_liftM_eq_ok] at h
  obtain ⟨d, _, ⟨hd, -⟩, rfl, -⟩ := h
  obtain ⟨n, hname, htakes⟩ := nsForm_takes hd
  refine ⟨d, _, rfl, htakes.ns_eq ▸ hname, htakes.says,
    fun hkept => ⟨?_, htakes.says.oneMeaning hkept⟩, ?_⟩
  · exact htakes.says.installedIn (nsForm_grounded hd) hkept
  · exact List.forall_mem_cons.2
      ⟨htakes.refers.oneMeaning, List.forall_mem_singleton.2 htakes.imports.oneMeaning⟩

/-! ### Options that replace one another, and options that do not -/

namespace Session

/-- The form `(ns again options)`. -/
def declaresAgain (options : Form) : Form :=
  .seq .list [.atom (.symbol "ns") .nowhere, .atom (.symbol "again") .nowhere, options] .nowhere

/-- The options `{aliases {u user} refers {user [one]} imports {brj.host [Math]}}`. -/
def appOptions : Form :=
  let symbol (s : String) : Form := .atom (.symbol s) .nowhere
  let vector (fs : List Form) : Form := .seq .vector fs .nowhere
  let map (fs : List Form) : Form := .seq .map fs .nowhere
  map [symbol "aliases", map [symbol "u", symbol "user"],
    symbol "refers", map [symbol "user", vector [symbol "one"]],
    symbol "imports", map [symbol "brj.host", vector [symbol "Math"]]]

theorem run_analyse_appOptions :
    (TypedLisp.analyse inApp.env "app" (declaresAgain appOptions)).run inApp.supply =
      .ok (.declare (.ns ⟨"again", [("u", "user")], [("one", ⟨"user", "one"⟩)],
        [("Math", ⟨"brj.host", "Math"⟩)]⟩) (plainNote .nowhere), inApp.supply) := by
  cbv

/-- All that `appOptions` says is so in the new namespace. -/
theorem analyse_ns_installs_appOptions :
    Unreplaced appOptions.entries ∧
      ∃ d note, (TypedLisp.analyse inApp.env "app" (declaresAgain appOptions)).run inApp.supply =
          .ok (.declare (.ns d) note, inApp.supply) ∧
        (inApp.env.withNs d).resolveQualifier d.ns "u" = some "user" ∧
        (∃ v, (inApp.env.withNs d).var? ⟨"user", "one"⟩ = some v ∧
          (inApp.env.withNs d).resolveVar d.ns "one" = some v) ∧
        (inApp.env.withNs d).resolveImport d.ns "Math" = some ⟨"brj.host", "Math"⟩ := by
  have hkept : Unreplaced appOptions.entries := ⟨by decide, by decide, by decide⟩
  obtain ⟨d, note, heq, -, -, hinstalls, -⟩ := analyse_ns_installs rfl run_analyse_appOptions
  obtain ⟨hinstalled, -⟩ := hinstalls hkept
  cases heq
  refine ⟨hkept, _, _, run_analyse_appOptions, ?_, ?_, ?_⟩
  · exact hinstalled.aliases ("u", "user") (by decide)
  · exact hinstalled.refers ("one", ⟨"user", "one"⟩) (by decide) (by cbv)
  · exact hinstalled.imports ("Math", ⟨"brj.host", "Math"⟩) (by decide)

/-- The options `{aliases {u user} aliases {}}`. -/
def replacedAlias : Form :=
  let symbol (s : String) : Form := .atom (.symbol s) .nowhere
  let map (fs : List Form) : Form := .seq .map fs .nowhere
  map [symbol "aliases", map [symbol "u", symbol "user"], symbol "aliases", map []]

/-- The options `{aliases {u user u brj.core}}`. -/
def doubleAlias : Form :=
  let symbol (s : String) : Form := .atom (.symbol s) .nowhere
  let map (fs : List Form) : Form := .seq .map fs .nowhere
  map [symbol "aliases", map [symbol "u", symbol "user", symbol "u", symbol "brj.core"]]

/-- **An alias can be lost**: a second `aliases` takes the place of the first, and what the first
says is not so. **An alias can be given two targets** in one form that is accepted. -/
theorem repeated_aliases_are_lost :
    (∃ d note, (TypedLisp.analyse inApp.env "app" (declaresAgain replacedAlias)).run inApp.supply =
        .ok (.declare (.ns d) note, inApp.supply) ∧
      ("u", "user") ∈ said "aliases" Form.aliasesIn replacedAlias.entries ∧
      (inApp.env.withNs d).resolveQualifier d.ns "u" = none) ∧
    ∃ d note, (TypedLisp.analyse inApp.env "app" (declaresAgain doubleAlias)).run inApp.supply =
        .ok (.declare (.ns d) note, inApp.supply) ∧
      ¬ OneMeaning (said "aliases" Form.aliasesIn doubleAlias.entries) := by
  refine ⟨⟨⟨"again", [], [], []⟩, plainNote .nowhere, by cbv, by decide, by cbv⟩,
    ⟨"again", [("u", "user"), ("u", "brj.core")], [], []⟩, plainNote .nowhere, by cbv, fun h => ?_⟩
  have heq := h ("u", "user") (by decide) ("u", "brj.core") (by decide) rfl
  exact absurd heq (by decide)

end Session

end TypedLisp
