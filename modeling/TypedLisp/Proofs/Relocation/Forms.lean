import TypedLisp.Proofs.Lookup
import TypedLisp.Proofs.Reading.Grammar

/-!
# Forms that have moved

A form can be moved to another place: its ranges change and nothing else does. What is read off forms
without a supply of numbers, such as names and the options of a namespace, does not change with
their place, and an error is the same error there (`nsForm_relocate`).
-/

namespace TypedLisp

/-- The error with its range moved. -/
def AnalysisError.relocate (g : Range → Range) (e : AnalysisError) : AnalysisError :=
  ⟨e.cause, g e.range⟩

namespace Form

mutual

/-- The form with all its ranges moved. -/
def relocate (g : Range → Range) : Form → Form
  | .atom a r => .atom a (g r)
  | .seq b items r => .seq b (relocateAll g items) (g r)

/-- The forms with all their ranges moved. -/
def relocateAll (g : Range → Range) : List Form → List Form
  | [] => []
  | f :: fs => relocate g f :: relocateAll g fs

end

@[simp] theorem relocateAll_eq_map (g : Range → Range) (fs : List Form) :
    relocateAll g fs = fs.map (relocate g) := by
  induction fs with
  | nil => rfl
  | cons f fs ih => simp [relocateAll, ih]

@[simp] theorem relocate_id (f : Form) : f.relocate id = f := by
  induction f using Form.ind with
  | atom a r => rfl
  | seq b items r ih =>
    rw [relocate, relocateAll_eq_map, List.map_congr_left ih, List.map_id']
    rfl

variable (g : Range → Range) (f : Form)

@[simp] theorem range_relocate : (f.relocate g).range = g f.range := by
  cases f <;> rfl

@[simp] theorem symbol?_relocate : (f.relocate g).symbol? = f.symbol? := by
  cases f with
  | atom a r => cases a <;> rfl
  | seq b items r => rfl

@[simp] theorem describe_relocate : (f.relocate g).describe = f.describe := by
  cases f <;> rfl

@[simp] theorem text_relocate : (f.relocate g).text = f.text := by
  induction f using Form.ind with
  | atom a r => rfl
  | seq b items r ih =>
    have htexts : items.map (text ∘ relocate g) = items.map text := List.map_congr_left ih
    rw [relocate, text, text, relocateAll_eq_map, texts_eq_map, texts_eq_map, List.map_map, htexts]

end Form

/-! ## Names and namespaces -/

section Names

variable (g : Range → Range)

theorem bindingName_relocate (f : Form) :
    bindingName (f.relocate g) = changed id (.relocate g) (bindingName f) := by
  cases f with
  | atom a r =>
    cases a with
    | symbol name =>
      rw [Form.relocate, bindingName, bindingName]
      split <;> rfl
    | _ => rfl
  | seq b items r => rfl

theorem symbolOr_relocate (what : String) (f : Form) :
    symbolOr what (f.relocate g) = changed id (.relocate g) (symbolOr what f) := by
  rw [symbolOr, symbolOr, Form.symbol?_relocate, Form.describe_relocate, Form.range_relocate]
  cases f.symbol? <;> rfl

theorem knownNs_relocate (env : Env) (f : Form) :
    knownNs env (f.relocate g) = changed id (.relocate g) (knownNs env f) := by
  rw [knownNs, knownNs, symbolOr_relocate, Form.range_relocate]
  refine changed_bind fun ns => ?_
  dsimp only [id]
  split <;> rfl

/-- The entries of a map that has moved. -/
def relocateEntry (entry : Form × Form) : Form × Form :=
  (entry.1.relocate g, entry.2.relocate g)

theorem aliasEntry_relocate (env : Env) (entry : Form × Form) :
    aliasEntry env (relocateEntry g entry) = changed id (.relocate g) (aliasEntry env entry) := by
  simp only [aliasEntry, relocateEntry, symbolOr_relocate, knownNs_relocate, Form.range_relocate]
  refine changed_bind fun name => changed_bind fun target => ?_
  dsimp only [id]
  split <;> rfl

theorem addRefer_relocate (env : Env) (source : String) (refers : List (String × GlobalName))
    (f : Form) : addRefer env source refers (f.relocate g) =
      changed id (.relocate g) (addRefer env source refers f) := by
  simp only [addRefer, symbolOr_relocate, Form.range_relocate]
  refine changed_bind fun name => ?_
  dsimp only [id]
  split
  · rfl
  · cases refers.lookup name with
    | none => rfl
    | some first =>
      dsimp only
      split <;> rfl

theorem addImport_relocate (package : String) (imports : List (String × GlobalName)) (f : Form) :
    addImport package imports (f.relocate g) =
      changed id (.relocate g) (addImport package imports f) := by
  simp only [addImport, symbolOr_relocate, Form.range_relocate]
  refine changed_bind fun name => ?_
  dsimp only [id]
  split
  · rfl
  · split <;> rfl

theorem vectorItems_relocate (what : String) (f : Form) :
    vectorItems what (f.relocate g) =
      changed (List.map (Form.relocate g)) (.relocate g) (vectorItems what f) := by
  match f with
  | .atom a r => rfl
  | .seq .vector items r => exact congrArg Except.ok (Form.relocateAll_eq_map g items)
  | .seq .list items r | .seq .set items r | .seq .map items r => rfl

theorem mapEntries_relocate (what : String) (f : Form) :
    mapEntries what (f.relocate g) =
      changed (List.map (relocateEntry g)) (.relocate g) (mapEntries what f) := by
  match f with
  | .atom a r => rfl
  | .seq .map items r =>
    rw [Form.relocate, Form.relocateAll_eq_map, mapEntries, pairs_map]
    rfl
  | .seq .list items r | .seq .set items r | .seq .vector items r => rfl

theorem addRefers_relocate (env : Env) (refers : List (String × GlobalName))
    (entry : Form × Form) : addRefers env refers (relocateEntry g entry) =
      changed id (.relocate g) (addRefers env refers entry) := by
  simp only [addRefers, relocateEntry, knownNs_relocate, vectorItems_relocate]
  exact changed_bind fun source => changed_bind fun fs =>
    changed_foldlM (fun refers f => addRefer_relocate g env source refers f) fs refers

theorem addImports_relocate (imports : List (String × GlobalName)) (entry : Form × Form) :
    addImports imports (relocateEntry g entry) =
      changed id (.relocate g) (addImports imports entry) := by
  simp only [addImports, relocateEntry, symbolOr_relocate, vectorItems_relocate]
  exact changed_bind fun package => changed_bind fun fs =>
    changed_foldlM (fun imports f => addImport_relocate g package imports f) fs imports

theorem nsOption_relocate (env : Env) (d : NsDecl) (entry : Form × Form) :
    nsOption env d (relocateEntry g entry) = changed id (.relocate g) (nsOption env d entry) := by
  rw [nsOption, nsOption]
  simp only [relocateEntry, Form.symbol?_relocate, Form.text_relocate, Form.range_relocate,
    mapEntries_relocate]
  split
  · refine changed_bind fun es => ?_
    rw [changed_mapM fun entry _ => aliasEntry_relocate g env entry, List.map_id_fun]
    exact changed_bind fun aliases => rfl
  · refine changed_bind fun es => ?_
    rw [changed_foldlM (fun refers entry => addRefers_relocate g env refers entry) es []]
    exact changed_bind fun refers => rfl
  · refine changed_bind fun es => ?_
    rw [changed_foldlM (fun imports entry => addImports_relocate g imports entry) es []]
    exact changed_bind fun imports => rfl
  · rfl

theorem nsForm_relocate (env : Env) (args : List Form) (r : Range) :
    nsForm env (args.map (Form.relocate g)) (g r) =
      changed id (.relocate g) (nsForm env args r) := by
  match args with
  | [] | _ :: _ :: _ :: _ => rfl
  | [name] =>
    rw [List.map_singleton, nsForm, nsForm, symbolOr_relocate]
    exact changed_bind fun ns => rfl
  | [name, options] =>
    rw [List.map_cons, List.map_singleton, nsForm, nsForm, symbolOr_relocate]
    refine changed_bind fun ns => ?_
    match options with
    | .atom a r => rfl
    | .seq .map items r =>
      simp only [Form.relocate, Form.relocateAll_eq_map, pairs_map]
      exact changed_foldlM (fun d entry => nsOption_relocate g env d entry) _ _
    | .seq .list items r | .seq .set items r | .seq .vector items r => rfl

end Names

end TypedLisp
