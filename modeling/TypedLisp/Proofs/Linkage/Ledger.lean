import TypedLisp.Heap
import TypedLisp.Proofs.Renaming

/-!
# Updates of names, and the cells that they take

What a name stands for changes by updates, each with a visible type and perhaps an object. An update
takes the cell of the update of the same name before it if both have the same type up to the names
of variables, else a new cell: a `Ledger` is a list of updates that have taken their cells so. Which
updates share a cell with a given one can then be told without cells, by the `stretch` of updates of
its name around it in which every type is that of the one before (`Ledger.past`, `Ledger.later`).
-/

namespace TypedLisp

/-- A change of what a name stands for: the visible type of its var from then on, and the object
that the var is bound to with its address, unless the var is only declared. -/
structure Update where
  name : GlobalName
  ty : Ty
  value : Option (Addr × Object)

/-! ## Stretches -/

/-- The updates at the front of a list, as long as each has the type of the one before it up to the
names of variables, where `t` comes before the first. -/
def stretch (t : Ty) : List Update → List Update
  | [] => []
  | u :: us => if t.alphaEquivalent u.ty then u :: stretch u.ty us else []

/-- Whether the stretch at the front of a list is all of it. -/
def unbroken (t : Ty) : List Update → Bool
  | [] => true
  | u :: us => t.alphaEquivalent u.ty && unbroken u.ty us

/-- The type of the last update. -/
def lastTy (t : Ty) : List Update → Ty
  | [] => t
  | u :: us => lastTy u.ty us

section Append

variable (t : Ty) (us : List Update) (u : Update)

theorem lastTy_append : lastTy t (us ++ [u]) = u.ty := by
  induction us generalizing t with
  | nil => rfl
  | cons w us ih => exact ih w.ty

theorem unbroken_append :
    unbroken t (us ++ [u]) = (unbroken t us && (lastTy t us).alphaEquivalent u.ty) := by
  induction us generalizing t with
  | nil => simp [unbroken, lastTy]
  | cons w us ih => simp only [List.cons_append, unbroken, lastTy, ih, Bool.and_assoc]

theorem stretch_append : stretch t (us ++ [u]) =
    stretch t us ++ if unbroken t (us ++ [u]) then [u] else [] := by
  induction us generalizing t with
  | nil => simp [stretch, unbroken]
  | cons w us ih =>
    simp only [List.cons_append, stretch, unbroken, ih]
    by_cases hw : t.alphaEquivalent w.ty = true
    · simp [hw]
    · simp [hw]

end Append

/-- The updates of a name. -/
def updatesOf (g : GlobalName) (us : List Update) : List Update := us.filter (·.name = g)

/-- What can be seen of a name by those who know it from a given update, where `older` are the
updates of the name before it, the newest first, and `later` those after it, the oldest first: the
newest object in the stretch around it. -/
def seen (u : Update) (older later : List Update) : Option (Addr × Object) :=
  ((stretch u.ty later).reverse ++ u :: stretch u.ty older).findSome? (·.value)

/-! ## Cells -/

/-- An update with the cell of its var. -/
structure Link extends Update where
  cell : Cell

/-- The updates of a name, with their cells. -/
def named (g : GlobalName) (ls : List Link) : List Link := ls.filter (·.name = g)

/-- The newest update of a name. -/
def newest? (g : GlobalName) (ls : List Link) : Option Link := (named g ls).head?

/-- The updates that have a cell. -/
def inCell (i : Nat) (ls : List Link) : List Link := ls.filter (·.cell.id = i)

/-- What the newest update that binds a cell binds it to. -/
def bound? (i : Nat) (ls : List Link) : Option (Addr × Object) := (inCell i ls).findSome? (·.value)

section Cons

variable {g : GlobalName} {i : Nat} {l : Link} {ls ks : List Link}

theorem named_cons_self (h : l.name = g) : named g (l :: ls) = l :: named g ls := by
  simp [named, h]

theorem named_cons_of_ne (h : l.name ≠ g) : named g (l :: ls) = named g ls := by simp [named, h]

theorem inCell_cons_self (h : l.cell.id = i) : inCell i (l :: ls) = l :: inCell i ls := by
  simp [inCell, h]

theorem inCell_cons_of_ne (h : l.cell.id ≠ i) : inCell i (l :: ls) = inCell i ls := by
  simp [inCell, h]

theorem bound?_cons_of_ne (h : l.cell.id ≠ i) : bound? i (l :: ls) = bound? i ls := by
  rw [bound?, inCell_cons_of_ne h, bound?]

theorem bound?_cons_of_some (h : l.cell.id = i) {p : Addr × Object} (hp : l.value = some p) :
    bound? i (l :: ls) = some p := by
  rw [bound?, inCell_cons_self h, List.findSome?_cons, hp]

theorem bound?_cons_of_none (h : l.value = none) : bound? i (l :: ls) = bound? i ls := by
  by_cases hi : l.cell.id = i
  · rw [bound?, inCell_cons_self hi, List.findSome?_cons, h, bound?]
  · exact bound?_cons_of_ne hi

theorem bound?_append : bound? i (ks ++ ls) = (bound? i ks).or (bound? i ls) := by
  rw [bound?, inCell, List.filter_append, List.findSome?_append]
  rfl

theorem map_named : (named g ls).map Link.toUpdate = updatesOf g (ls.map Link.toUpdate) := by
  simp only [named, updatesOf, List.filter_map]
  rfl

theorem exists_of_bound? {p : Addr × Object} (h : bound? i ls = some p) :
    ∃ l ∈ ls, l.cell.id = i ∧ l.value = some p := by
  obtain ⟨l, hl, hp⟩ := List.exists_of_findSome?_eq_some h
  obtain ⟨hl, hi⟩ := List.mem_filter.1 hl
  exact ⟨l, hl, by simpa using hi, hp⟩

theorem newest?_cons_self (h : l.name = g) : newest? g (l :: ls) = some l := by
  rw [newest?, named_cons_self h, List.head?_cons]

theorem newest?_cons_of_ne (h : l.name ≠ g) : newest? g (l :: ls) = newest? g ls := by
  rw [newest?, named_cons_of_ne h, newest?]

theorem mem_of_newest? (h : newest? g ls = some l) : l ∈ ls ∧ l.name = g := by
  simpa [named] using List.mem_of_head? h

theorem newest?_of_nodup {new : List Link} (hnodup : (new.map (·.name)).Nodup) {l : Link}
    (hl : l ∈ new) : newest? l.name (new ++ ls) = some l := by
  induction new with
  | nil => cases hl
  | cons k new ih =>
    obtain ⟨hk, hnew⟩ := List.nodup_cons.1 hnodup
    rcases List.mem_cons.1 hl with rfl | hl'
    · exact newest?_cons_self rfl
    · have hne : k.name ≠ l.name := fun heq => hk (List.mem_map.2 ⟨l, hl', heq.symm⟩)
      exact (newest?_cons_of_ne hne).trans (ih hnew hl')

end Cons

/-- Whether updates, the newest first, have taken their cells as they should: an update takes the
cell of the one of the same name before it if the types agree, else a cell that no update has. -/
inductive Ledger : List Link → Prop where
  | nil : Ledger []
  | kept {l old : Link} {ls : List Link} (h : Ledger ls) (hold : newest? l.name ls = some old)
      (hty : old.ty.alphaEquivalent l.ty = true) (hcell : l.cell = old.cell) : Ledger (l :: ls)
  | fresh {l : Link} {ls : List Link} (h : Ledger ls)
      (hty : ∀ old, newest? l.name ls = some old → old.ty.alphaEquivalent l.ty = false)
      (hcell : ∀ k ∈ ls, k.cell.id ≠ l.cell.id) : Ledger (l :: ls)

namespace Ledger

variable {g : GlobalName} {l k : Link} {ls : List Link}

/-- **Updates that share a cell have the same name, and the same type** up to the names of
variables. -/
theorem same_cell (h : Ledger ls) (hl : l ∈ ls) (hk : k ∈ ls) (hcell : l.cell.id = k.cell.id) :
    l.name = k.name ∧ l.ty.alphaEquivalent k.ty = true := by
  induction h generalizing l k with
  | nil => cases hl
  | @kept new old ls h hold hty hnew ih =>
    obtain ⟨hmem, hname⟩ := mem_of_newest? hold
    -- the update before the new one stands in for it
    have hother : ∀ k ∈ ls, new.cell.id = k.cell.id →
        new.name = k.name ∧ new.ty.alphaEquivalent k.ty = true := fun k hk heq => by
      obtain ⟨hn, ht⟩ := ih hmem hk (by rw [← hnew]; exact heq)
      exact ⟨hname ▸ hn, Ty.alphaEquivalent_trans (Ty.alphaEquivalent_symm hty) ht⟩
    rcases List.mem_cons.1 hl with rfl | hl' <;> rcases List.mem_cons.1 hk with rfl | hk'
    · exact ⟨rfl, Ty.alphaEquivalent_refl _⟩
    · exact hother k hk' hcell
    · obtain ⟨hn, ht⟩ := hother l hl' hcell.symm
      exact ⟨hn.symm, Ty.alphaEquivalent_symm ht⟩
    · exact ih hl' hk' hcell
  | @fresh new ls h hty hnew ih =>
    rcases List.mem_cons.1 hl with rfl | hl' <;> rcases List.mem_cons.1 hk with rfl | hk'
    · exact ⟨rfl, Ty.alphaEquivalent_refl _⟩
    · exact absurd hcell.symm (hnew k hk')
    · exact absurd hcell (hnew l hl')
    · exact ih hl' hk' hcell

theorem cell_ne (h : Ledger (k :: ls)) (hl : l ∈ ls) (hname : k.name ≠ l.name) :
    k.cell.id ≠ l.cell.id := fun heq =>
  hname (h.same_cell (List.mem_cons_self ..) (List.mem_cons_of_mem _ hl) heq).1

/-- **The updates up to a given one that have its cell**: the stretch of updates of its name that
ends with it. -/
theorem past (h : Ledger ls) {older : List Link} (hl : named g ls = l :: older) :
    (inCell l.cell.id ls).map Link.toUpdate =
      l.toUpdate :: stretch l.ty (older.map Link.toUpdate) := by
  induction h generalizing l older with
  | nil => cases hl
  | @kept k old ls h hold hty hcell ih =>
    by_cases hk : k.name = g
    · rw [named_cons_self hk] at hl
      obtain ⟨rfl, rfl⟩ := List.cons.inj hl
      subst hk
      obtain ⟨rest, hrest⟩ : ∃ rest, named k.name ls = old :: rest :=
        List.head?_eq_some_iff.1 hold
      have hty' : k.ty.alphaEquivalent old.ty = true := Ty.alphaEquivalent_symm hty
      rw [inCell_cons_self rfl, List.map_cons, hcell, ih hrest, hrest, List.map_cons, stretch]
      exact congrArg _ (if_pos hty').symm
    · rw [named_cons_of_ne hk] at hl
      obtain ⟨hmem, hname⟩ := mem_of_newest? (g := g) (by rw [newest?, hl, List.head?_cons])
      rw [inCell_cons_of_ne ((h.kept hold hty hcell).cell_ne hmem (hname ▸ hk)), ih hl]
  | @fresh k ls h hty hcell ih =>
    by_cases hk : k.name = g
    · rw [named_cons_self hk] at hl
      obtain ⟨rfl, rfl⟩ := List.cons.inj hl
      subst hk
      have hnone : inCell k.cell.id ls = [] := List.filter_eq_nil_iff.2 fun k' hk' => by
        simpa using hcell k' hk'
      rw [inCell_cons_self rfl, List.map_cons, hnone, List.map_nil]
      cases hrest : named k.name ls with
      | nil => rfl
      | cons old rest =>
        have hold := hty old (by rw [newest?, hrest, List.head?_cons])
        rw [Ty.alphaEquivalent_comm] at hold
        simp [stretch, hold]
    · rw [named_cons_of_ne hk] at hl
      obtain ⟨hmem, hname⟩ := mem_of_newest? (g := g) (by rw [newest?, hl, List.head?_cons])
      rw [inCell_cons_of_ne ((h.fresh hty hcell).cell_ne hmem (hname ▸ hk)), ih hl]

theorem of_append (later : List Link) (h : Ledger (later ++ ls)) : Ledger ls := by
  induction later with
  | nil => exact h
  | cons k later ih => exact ih (by cases h <;> assumption)

/-- The updates of a name after a given point, the oldest first. -/
def since (g : GlobalName) (later : List Link) : List Update :=
  ((named g later).map Link.toUpdate).reverse

theorem since_eq (g : GlobalName) (later : List Link) :
    since g later = updatesOf g (later.map Link.toUpdate).reverse := by
  rw [since, map_named, updatesOf, updatesOf, List.filter_reverse]

theorem since_cons_self {later : List Link} (h : k.name = g) :
    since g (k :: later) = since g later ++ [k.toUpdate] := by
  rw [since, named_cons_self h, List.map_cons, List.reverse_cons, since]

theorem since_cons_of_ne {later : List Link} (h : k.name ≠ g) :
    since g (k :: later) = since g later := by rw [since, named_cons_of_ne h, since]

/-- The newest update has the cell of a given one of the same name if and only if the types have
been the same ever since. -/
theorem newest?_later {later : List Link} (h : Ledger (later ++ ls)) (hl : newest? g ls = some l) :
    ∃ new, newest? g (later ++ ls) = some new ∧ new.ty = lastTy l.ty (since g later) ∧
      (new.cell.id = l.cell.id ↔ unbroken l.ty (since g later) = true) := by
  induction later with
  | nil => exact ⟨l, hl, rfl, by simp [since, named, unbroken]⟩
  | cons k later ih =>
    have hmem : l ∈ later ++ ls := List.mem_append_right _ (mem_of_newest? hl).1
    by_cases hk : k.name = g
    · refine ⟨k, newest?_cons_self hk, ?_, ?_⟩
      · rw [since_cons_self hk, lastTy_append]
      rw [since_cons_self hk, unbroken_append]
      subst hk
      cases h with
      | kept h hold hty hcell =>
        obtain ⟨new, hnew, hlast, hiff⟩ := ih h
        obtain rfl := Option.some.inj (hold.symm.trans hnew)
        rw [hcell, hiff, ← hlast, hty, Bool.and_true]
      | fresh h hty hcell =>
        obtain ⟨new, hnew, hlast, -⟩ := ih h
        rw [← hlast, hty new hnew, Bool.and_false]
        exact ⟨fun heq => absurd heq.symm (hcell l hmem), nofun⟩
    · rw [since_cons_of_ne hk, List.cons_append, newest?_cons_of_ne hk]
      exact ih (of_append [k] h)

/-- **The updates after a given one that have its cell**: the stretch of updates of its name that
begins after it. -/
theorem later {later : List Link} (h : Ledger (later ++ ls)) (hl : newest? g ls = some l) :
    (inCell l.cell.id later).map Link.toUpdate = (stretch l.ty (since g later)).reverse := by
  induction later with
  | nil => rfl
  | cons k later ih =>
    have hmem : l ∈ later ++ ls := List.mem_append_right _ (mem_of_newest? hl).1
    have htail : Ledger (later ++ ls) := of_append [k] h
    by_cases hk : k.name = g
    · obtain ⟨new, hnew, -, hiff⟩ := newest?_later h hl
      obtain rfl : k = new := Option.some.inj ((newest?_cons_self hk).symm.trans hnew)
      rw [since_cons_self hk] at hiff ⊢
      rw [stretch_append, List.reverse_append, ← ih htail]
      by_cases hcell : k.cell.id = l.cell.id
      · rw [if_pos (hiff.1 hcell), inCell_cons_self hcell]
        rfl
      · rw [if_neg (fun hun => hcell (hiff.2 hun)), inCell_cons_of_ne hcell]
        rfl
    · have hname : k.name ≠ l.name := (mem_of_newest? hl).2 ▸ hk
      rw [inCell_cons_of_ne (h.cell_ne hmem hname), since_cons_of_ne hk, ih htail]

/-- **What the cell of a given update is bound to**, in terms of the updates of its name alone. -/
theorem bound?_eq_seen {later older : List Link} (h : Ledger (later ++ ls))
    (hl : named g ls = l :: older) : bound? l.cell.id (later ++ ls) =
      seen l.toUpdate (older.map Link.toUpdate) (since g later) := by
  have hmap : bound? l.cell.id (later ++ ls) =
      ((inCell l.cell.id (later ++ ls)).map Link.toUpdate).findSome? (·.value) := by
    rw [List.findSome?_map]
    rfl
  have hnewest : newest? g ls = some l := by rw [newest?, hl, List.head?_cons]
  rw [hmap, inCell, List.filter_append, List.map_append]
  exact congrArg (List.findSome? (·.value))
    (congrArg₂ (· ++ ·) (h.later hnewest) ((of_append later h).past hl))

end Ledger

end TypedLisp
