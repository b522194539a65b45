import MulleRbtree.Library.Runs
import MulleRbtree.Layout.Enumerate
import MulleRbtree.Layout.Insert
import MulleRbtree.Layout.Remove
import MulleRbtree.Layout.Walks

/-!
# Runs of low-level calls

* `Call`: the calls of `mulle--rbtree.h`, with `Call.Pre` for what their comments and assertions
  ask of the caller: what is inserted is a node outside the tree, what else is passed is a node in
  it;
* `Image`: a tree as users see it, that is its environment, the nodes outside and the tree itself,
  and `Evolves`, what each call makes of it;
* `exec_evolves`: a call whose precondition holds neither faults nor runs forever, and what it does
  to the memory is what `Evolves` says;
* `Evolves.reshapes`: the ways a tree can change, from which `Sound` and every other invariant
  follow.
-/

namespace MulleRbtree

open BinaryTree Cells Program

variable {σ : Type} [MulleStorage σ]

/-! ### Calls -/

inductive Call
  | newNode (value : VoidPtr)
  | freeNode (node : Ref)
  | insertNode (node : Ref) (comp : VoidPtr → VoidPtr → ℤ)
  | insertNodeBeforeNode (node successor : Ref)
  | insertNodeAfterNode (node predecessor : Ref)
  | removeNode (node : Ref)
  | markNodeAsDirty (node : Ref)
  | walkDirty
  | findNode (key : VoidPtr) (comp : VoidPtr → VoidPtr → ℤ)
  | findNodeEqualOrGreater (key : VoidPtr) (comp : VoidPtr → VoidPtr → ℤ)
  | nextNode (node : Ref)
  | previousNode (node : Ref)
  | isDirty
  | getCount

/-- What a call returns. -/
inductive Answer
  | done
  | node (n : Ref)
  | code (k : ℤ)
  | flag (b : Bool)
  | count (n : ℕ)
  deriving DecidableEq

namespace Call

/-- What the caller has to see to. -/
def Pre : Call → Base σ → Prop
  | freeNode n, s => Unattached s n
  | insertNode n _, s => Unattached s n
  | insertNodeBeforeNode n successor, s => Unattached s n ∧ Attached s successor
  | insertNodeAfterNode n predecessor, s => Unattached s n ∧ Attached s predecessor
  | removeNode n, s => Attached s n
  | markNodeAsDirty n, s => Attached s n ∧ Options.useDirty s.options = true
  | nextNode n, s => Attached s n
  | previousNode n, s => Attached s n
  | _, _ => True

def exec : Call → Base.M σ Answer
  | newNode value => do return .node (← Base.newNode value)
  | freeNode n => do
    Base.freeNode n
    return .done
  | insertNode n comp => do return .code (← Base.insertNode n comp)
  | insertNodeBeforeNode n successor => do
    Base.insertNodeBeforeNode n successor
    return .done
  | insertNodeAfterNode n predecessor => do
    Base.insertNodeAfterNode n predecessor
    return .done
  | removeNode n => do
    Base.removeNode n
    return .done
  | markNodeAsDirty n => do
    Base.markNodeAsDirty n
    return .done
  | walkDirty => do
    Base.walkDirty
    return .done
  | findNode key comp => do return .node (← Base.findNode key comp)
  | findNodeEqualOrGreater key comp => do return .node (← Base.findNodeEqualOrGreater key comp)
  | nextNode n => do return .node (← Base.nextNode n)
  | previousNode n => do return .node (← Base.previousNode n)
  | isDirty => do return .flag (← Base.treeIsDirty)
  | getCount => do return .count (← Base.getCount)

end Call

/-- The low-level interface. -/
def calls (σ : Type) [MulleStorage σ] : Interface (Base σ) Fault Call Answer := ⟨Call.Pre, Call.exec⟩

/-! ### Images -/

/-- A tree, and the nodes of its pool that are not in it. -/
structure Image (σ : Type) where
  env : Env σ
  spare : Multiset Entry
  tree : ETree

/-- The memory is as the image says. -/
def Shows (s : Base σ) (m : Image σ) : Prop :=
  ∃ z, Repr s m.env z (m.spare.map looseCell) m.tree

/-- What holds between calls. -/
structure Sound (m : Image σ) : Prop where
  redBlack : IsRedBlack Entry.isRed m.tree
  dirt : Dirt m.env.options m.tree
  fresh : ∀ a ∈ m.spare, a.color = freshColor m.env.options

/-- What a call makes of an image. -/
inductive Evolves : Image σ → Call → Answer → Image σ → Prop
  | newNode (E : Env σ) (F : Multiset Entry) (T : ETree) (value : VoidPtr) :
      Evolves ⟨E, F, T⟩ (.newNode value) (.node (.slot E.nextSlot))
        ⟨E.malloced, E.fresh value ::ₘ F, T⟩
  | freeNode (E : Env σ) (a : Entry) (F : Multiset Entry) (T : ETree) :
      Evolves ⟨E, a ::ₘ F, T⟩ (.freeNode (.slot a.slot)) .done ⟨E.freed a.slot, F, T⟩
  | rejected {E : Env σ} {a : Entry} {F : Multiset Entry} {T : ETree}
      {comp : VoidPtr → VoidPtr → ℤ}
      (hseek : seek (matching E.options comp (a.value E.options)) (halts E.options) [] T = none) :
      Evolves ⟨E, a ::ₘ F, T⟩ (.insertNode (.slot a.slot) comp) (.code EEXIST)
        ⟨E.traced (compareEvents E.options (a.value E.options)
          (visits (matching E.options comp (a.value E.options)) (halts E.options) T)), a ::ₘ F, T⟩
  | inserted {E : Env σ} {a : Entry} {F : Multiset Entry} {T : ETree}
      {comp : VoidPtr → VoidPtr → ℤ} {g : Path Entry} {k : ℕ}
      (hseek : seek (matching E.options comp (a.value E.options)) (halts E.options) [] T = some g)
      (ha : a.slot ∉ slots T) (hk : k ≤ 2) :
      Evolves ⟨E, a ::ₘ F, T⟩ (.insertNode (.slot a.slot) comp) (.code 0)
        ⟨(E.traced (compareEvents E.options (a.value E.options) (visits (matching E.options comp
          (a.value E.options)) (halts E.options) T))).advanced.turnedBy k, F, attach E.stamp a g⟩
  | before {E : Env σ} {a e : Entry} {F : Multiset Entry} {c : Path Entry} {l r : ETree} {k : ℕ}
      (ha : a.slot ∉ slots (plug c (node e l r))) (hk : k ≤ 2) :
      Evolves ⟨E, a ::ₘ F, plug c (node e l r)⟩
        (.insertNodeBeforeNode (.slot a.slot) (.slot e.slot)) .done
        ⟨E.advanced.turnedBy k, F, attach E.stamp a (Base.beside .left c e l r)⟩
  | after {E : Env σ} {a e : Entry} {F : Multiset Entry} {c : Path Entry} {l r : ETree} {k : ℕ}
      (ha : a.slot ∉ slots (plug c (node e l r))) (hk : k ≤ 2) :
      Evolves ⟨E, a ::ₘ F, plug c (node e l r)⟩
        (.insertNodeAfterNode (.slot a.slot) (.slot e.slot)) .done
        ⟨E.advanced.turnedBy k, F, attach E.stamp a (Base.beside .right c e r l)⟩
  | removed {E : Env σ} {F : Multiset Entry} {c : Path Entry} {a : Entry} {l r : ETree} {k : ℕ}
      (hk : k ≤ 3) :
      Evolves ⟨E, F, plug c (node a l r)⟩ (.removeNode (.slot a.slot)) .done
        ⟨(E.advanced.freed a.slot).turnedBy k, F, removeAt E.stamp.next c a l r⟩
  | marked {E : Env σ} {F : Multiset Entry} {T : ETree} {i : ℕ} (hi : i ∈ slots T) :
      Evolves ⟨E, F, T⟩ (.markNodeAsDirty (.slot i)) .done ⟨E, F, soilTo E.stamp i T⟩
  | walked (E : Env σ) (F : Multiset Entry) (T : ETree) :
      Evolves ⟨E, F, T⟩ .walkDirty .done ⟨E.traced (washEvents E.options T), F, wash T⟩
  | found (E : Env σ) (F : Multiset Entry) (T : ETree) (key : VoidPtr)
      (comp : VoidPtr → VoidPtr → ℤ) :
      Evolves ⟨E, F, T⟩ (.findNode key comp)
        (.node (labelRef (lookup (matching E.options comp key) T)))
        ⟨E.traced (compareEvents E.options key (visits (matching E.options comp key) true T)), F, T⟩
  | reached (E : Env σ) (F : Multiset Entry) (T : ETree) (key : VoidPtr)
      (comp : VoidPtr → VoidPtr → ℤ) :
      Evolves ⟨E, F, T⟩ (.findNodeEqualOrGreater key comp)
        (.node (labelRef (ceiling (matching E.options comp key) T none)))
        ⟨E.traced (compareEvents E.options key (visits (matching E.options comp key) true T)), F, T⟩
  | next (E : Env σ) (F : Multiset Entry) (c : Path Entry) (e : Entry) (l r : ETree) :
      Evolves ⟨E, F, plug c (node e l r)⟩ (.nextNode (.slot e.slot))
        (.node (labelRef (r.inorder ++ after c).head?)) ⟨E, F, plug c (node e l r)⟩
  | previous (E : Env σ) (F : Multiset Entry) (c : Path Entry) (e : Entry) (l r : ETree) :
      Evolves ⟨E, F, plug c (node e l r)⟩ (.previousNode (.slot e.slot))
        (.node (labelRef (before c ++ l.inorder).getLast?)) ⟨E, F, plug c (node e l r)⟩
  | isDirty (E : Env σ) (F : Multiset Entry) (T : ETree) :
      Evolves ⟨E, F, T⟩ .isDirty (.flag (rootHas Entry.isDirty T)) ⟨E, F, T⟩
  | counted (E : Env σ) (F : Multiset Entry) (T : ETree) :
      Evolves ⟨E, F, T⟩ .getCount (.count T.numNodes) ⟨E, F, T⟩

/-! ### What can happen to a tree -/

/-- The ways a tree can change in a call. -/
inductive Reshapes (options : BitVec 32) (F : Multiset Entry) (T : ETree) : ETree → Prop
  | same : Reshapes options F T T
  | attach {o : Stamp} {a : Entry} {g : Path Entry} (ho : o.options = options) (ha : a ∈ F)
      (hs : a.slot ∉ slots T) (hT : plug g nil = T) : Reshapes options F T (attach o a g)
  | remove {o : Stamp} {c : Path Entry} {a : Entry} {l r : ETree} (ho : o.options = options)
      (hT : plug c (node a l r) = T) : Reshapes options F T (removeAt o c a l r)
  | soil {o : Stamp} {i : ℕ} (ho : o.options = options) (hi : i ∈ slots T) :
      Reshapes options F T (soilTo o i T)
  | wash : Reshapes options F T (wash T)

namespace Evolves

variable {m m' : Image σ} {c : Call} {r : Answer}

theorem reshapes (h : Evolves m c r m') :
    Reshapes m.env.options m.spare m.tree m'.tree ∧ m'.env.options = m.env.options ∧
      ∀ a ∈ m'.spare, a ∈ m.spare ∨ a.color = freshColor m.env.options := by
  cases h with
  | newNode E F T value =>
    refine ⟨.same, rfl, fun a ha => ?_⟩
    rcases Multiset.mem_cons.1 ha with rfl | ha
    · exact .inr rfl
    · exact .inl ha
  | freeNode E a F T => exact ⟨.same, rfl, fun b hb => .inl (Multiset.mem_cons_of_mem hb)⟩
  | rejected => exact ⟨.same, rfl, fun b hb => .inl hb⟩
  | inserted hseek ha =>
    exact ⟨.attach rfl (Multiset.mem_cons_self _ _) ha (plug_seek hseek).1, rfl,
      fun b hb => .inl (Multiset.mem_cons_of_mem hb)⟩
  | before ha =>
    exact ⟨.attach rfl (Multiset.mem_cons_self _ _) ha (Base.plug_beside .left _ _ _ _), rfl,
      fun b hb => .inl (Multiset.mem_cons_of_mem hb)⟩
  | after ha =>
    exact ⟨.attach rfl (Multiset.mem_cons_self _ _) ha (Base.plug_beside .right _ _ _ _), rfl,
      fun b hb => .inl (Multiset.mem_cons_of_mem hb)⟩
  | removed => exact ⟨.remove rfl rfl, rfl, fun b hb => .inl hb⟩
  | marked hi => exact ⟨.soil rfl hi, rfl, fun b hb => .inl hb⟩
  | walked E F T => exact ⟨.wash, rfl, fun b hb => .inl hb⟩
  | found => exact ⟨.same, rfl, fun b hb => .inl hb⟩
  | reached => exact ⟨.same, rfl, fun b hb => .inl hb⟩
  | next => exact ⟨.same, rfl, fun b hb => .inl hb⟩
  | previous => exact ⟨.same, rfl, fun b hb => .inl hb⟩
  | isDirty => exact ⟨.same, rfl, fun b hb => .inl hb⟩
  | counted => exact ⟨.same, rfl, fun b hb => .inl hb⟩

end Evolves

namespace Reshapes

variable {options : BitVec 32} {F : Multiset Entry} {T T' : ETree}

theorem isRedBlack (h : Reshapes options F T T') (hF : ∀ a ∈ F, a.color = freshColor options)
    (hb : IsRedBlack Entry.isRed T) : IsRedBlack Entry.isRed T' := by
  cases h with
  | same => exact hb
  | attach ho ha hs hT =>
    exact attach_isRedBlack (hT ▸ hb) (by rw [Entry.isRed, hF _ ha, isRed_freshColor])
  | remove ho hT => exact removeAt_isRedBlack (hT ▸ hb)
  | soil ho hi => exact soilTo_isRedBlack hb
  | wash => exact wash_isRedBlack hb

theorem dirt (h : Reshapes options F T T') (hF : ∀ a ∈ F, a.color = freshColor options)
    (hd : Dirt options T) : Dirt options T' := by
  cases h with
  | same => exact hd
  | attach ho ha hs hT =>
    subst ho hT
    exact kept_attach tolerant_up hd (proper_of_freshColor (hF _ ha)) hs
  | remove ho hT =>
    subst ho hT
    exact kept_removeAt tolerant_up hd
  | soil ho hi =>
    subst ho
    exact Kept.soilTo tolerant_up hd
  | wash => exact dirt_of_clean (wash_clean hd.up)

end Reshapes

theorem Evolves.sound {m m' : Image σ} {c : Call} {r : Answer} (h : Evolves m c r m')
    (hm : Sound m) : Sound m' := by
  obtain ⟨hr, ho, hF⟩ := h.reshapes
  refine ⟨hr.isRedBlack hm.fresh hm.redBlack, ?_, fun a ha => ?_⟩
  · rw [ho]
    exact hr.dirt hm.fresh hm.dirt
  · rw [ho]
    exact (hF a ha).elim (hm.fresh a) id

/-! ### Calls do what `Evolves` says -/

/-- One of the nodes outside, in front of the others. -/
theorem repr_cons {s : Base σ} {E : Env σ} {z : Sentinel} {a : Entry} {F : Multiset Entry}
    {T : ETree} : Repr s E z ((a ::ₘ F).map looseCell) T ↔
      Repr s E z ({looseCell a} + F.map looseCell) T := by
  rw [Multiset.map_cons, Multiset.singleton_add]

/-- A node that can be inserted is one of those outside, and red. -/
theorem Repr.exists_fresh {s : Base σ} {E : Env σ} {z : Sentinel} {F : Multiset Entry} {T : ETree}
    (h : Repr s E z (F.map looseCell) T) (hF : ∀ a ∈ F, a.color = freshColor E.options) {n : Ref}
    (hn : Unattached s n) : ∃ a F', F = a ::ₘ F' ∧ n = .slot a.slot ∧ a.isRed = true ∧
      Repr s E z ({looseCell a} + F'.map looseCell) T := by
  obtain ⟨a, ha, rfl⟩ := h.unattached_iff.1 hn
  obtain ⟨F', rfl⟩ := Multiset.exists_cons_of_mem ha
  exact ⟨a, F', rfl, rfl, by rw [Entry.isRed, hF a ha, isRed_freshColor], repr_cons.1 h⟩

theorem exec_evolves {c : Call} {s : Base σ} {m : Image σ} (hs : Shows s m) (hm : Sound m)
    (hp : c.Pre s) : Ensures c.exec s fun r s' => ∃ m', Evolves m c r m' ∧ Shows s' m' := by
  obtain ⟨E, F, T⟩ := m
  obtain ⟨z, h⟩ := hs
  obtain ⟨hb, hd, hF⟩ := hm
  dsimp only at h hb hd hF
  cases c with
  | newNode value =>
    refine (Base.newNode_spec h value).bind ?_
    rintro _ s' ⟨rfl, h'⟩
    exact .pure ⟨_, .newNode E F T value, z, repr_cons.2 h'⟩
  | freeNode n =>
    obtain ⟨a, F, rfl, rfl, hred, h⟩ := h.exists_fresh hF hp
    exact (Base.freeNode_spec h).bind fun _ s' h' => .pure ⟨_, .freeNode E a F T, z, h'⟩
  | insertNode n comp =>
    obtain ⟨a, F, rfl, rfl, hred, h⟩ := h.exists_fresh hF hp
    refine (Base.insertNode_spec h hb hred comp).bind fun r s' h' => .pure ?_
    cases hseek : seek (matching E.options comp (a.value E.options)) (halts E.options) [] T with
    | none =>
      rw [hseek] at h'
      obtain ⟨rfl, h'⟩ := h'
      exact ⟨_, .rejected hseek, z, repr_cons.2 h'⟩
    | some g =>
      rw [hseek] at h'
      obtain ⟨rfl, k, hk, h'⟩ := h'
      exact ⟨_, .inserted hseek (Base.loose_notMem h) hk, z, h'⟩
  | insertNodeBeforeNode n successor =>
    obtain ⟨hn, hp⟩ := hp
    obtain ⟨a, F, rfl, rfl, hred, h'⟩ := h.exists_fresh hF hn
    obtain ⟨c, e, l, r, rfl, rfl⟩ := h.exists_of_attached hp
    refine (Base.insertNodeBeforeNode_spec h' hb hred).bind fun _ s' h' => .pure ?_
    obtain ⟨k, hk, h'⟩ := h'
    exact ⟨_, .before (Base.loose_notMem (repr_cons.1 h)) hk, z, h'⟩
  | insertNodeAfterNode n predecessor =>
    obtain ⟨hn, hp⟩ := hp
    obtain ⟨a, F, rfl, rfl, hred, h'⟩ := h.exists_fresh hF hn
    obtain ⟨c, e, l, r, rfl, rfl⟩ := h.exists_of_attached hp
    refine (Base.insertNodeAfterNode_spec h' hb hred).bind fun _ s' h' => .pure ?_
    obtain ⟨k, hk, h'⟩ := h'
    exact ⟨_, .after (Base.loose_notMem (repr_cons.1 h)) hk, z, h'⟩
  | removeNode n =>
    obtain ⟨c, a, l, r, rfl, rfl⟩ := h.exists_of_attached hp
    refine (Base.removeNode_spec h hb hd).bind fun _ s' h' => .pure ?_
    obtain ⟨k, hk, z', h'⟩ := h'
    exact ⟨_, .removed hk, z', h'⟩
  | markNodeAsDirty n =>
    obtain ⟨hn, ho⟩ := hp
    have ho : Options.useDirty E.options = true := Holds.options_eq h ▸ ho
    obtain ⟨c, e, l, r, rfl, rfl⟩ := h.exists_of_attached hn
    refine (Base.markNodeAsDirty_root h (t := node e l r) (by simp) ho).bind fun _ s' h' =>
      .pure ⟨_, .marked (i := e.slot) (Repr.mem_slots_plug (by simp) c), z, ?_⟩
    rw [soilTo_plug_node h.nodup_slots]
    exact h'
  | walkDirty =>
    exact (Base.walkDirty_spec h hd).bind fun _ s' h' => .pure ⟨_, .walked E F T, z, h'⟩
  | findNode key comp =>
    refine (Base.findNode_spec h key comp).bind ?_
    rintro _ s' ⟨rfl, h'⟩
    exact .pure ⟨_, .found E F T key comp, z, h'⟩
  | findNodeEqualOrGreater key comp =>
    refine (Base.findNodeEqualOrGreater_spec h key comp).bind ?_
    rintro _ s' ⟨rfl, h'⟩
    exact .pure ⟨_, .reached E F T key comp, z, h'⟩
  | nextNode n =>
    obtain ⟨c, e, l, r, rfl, rfl⟩ := h.exists_of_attached hp
    exact .bind_eq (Base.nextNode_spec h) (.pure ⟨_, .next E F c e l r, z, h⟩)
  | previousNode n =>
    obtain ⟨c, e, l, r, rfl, rfl⟩ := h.exists_of_attached hp
    exact .bind_eq (Base.previousNode_spec h) (.pure ⟨_, .previous E F c e l r, z, h⟩)
  | isDirty =>
    have hdirty : Base.treeIsDirty s = .ok (rootHas Entry.isDirty T, s) := by
      rw [Base.treeIsDirty, bind_eq h.getRoot]
      exact Repr.isDirty (c := []) h
    exact .bind_eq hdirty (.pure ⟨_, .isDirty E F T, z, h⟩)
  | getCount => exact .bind_eq (Base.getCount_spec h) (.pure ⟨_, .counted E F T, z, h⟩)

/-! ### Runs -/

/-- A new tree. -/
def Image.init (config : Config) : Image σ :=
  ⟨(Base.initWithConfig config : Base σ).env, 0, nil⟩

theorem shows_init (config : Config) :
    Shows (Base.initWithConfig config : Base σ) (.init config) := by
  refine ⟨⟨.nil, 0⟩, rfl, rfl, ⟨by simp [Image.init], fun a c => ?_⟩, fun i => ?_⟩
  · by_cases ha : a = .nil
    · simp [Image.init, Base.initWithConfig, Sentinel.cell, ha, eq_comm]
    · simp [Image.init, Base.initWithConfig, Sentinel.cell, ha]
  · simp [Image.init, Base.initWithConfig, Base.env, Sentinel.cell, MulleStorage.live_init]

theorem sound_init (config : Config) : Sound (.init config : Image σ) :=
  ⟨⟨rfl, 0, rfl⟩, kept_nil, by simp [Image.init]⟩

/-- What the memory shows between calls. -/
def Represents (s : Base σ) (m : Image σ) : Prop := Shows s m ∧ Sound m

theorem exec_represents {c : Call} {s : Base σ} {m : Image σ} (h : Represents s m)
    (hp : c.Pre s) : Ensures c.exec s fun r s' => ∃ m', Evolves m c r m' ∧ Represents s' m' :=
  (exec_evolves h.1 h.2 hp).mono fun _ _ ⟨m', he, hs⟩ => ⟨m', he, hs, he.sound h.2⟩

/-- Every state of a run shows an image to which the image of the start has evolved. -/
theorem run_evolves {s t : Base σ} {m : Image σ} {h : List (Call × Answer)}
    (hrun : (calls σ).Run s h t) (hs : Represents s m) :
    ∃ m', Steps Evolves m h m' ∧ Represents t m' := by
  have hstep : ∀ c s m, Represents s m → (calls σ).Pre c s → Ensures ((calls σ).exec c) s
      fun r s' => ∃ m', Evolves m c r m' ∧ Represents s' m' := fun _ _ _ h hp =>
    exec_represents h hp
  exact hrun.simulate hstep hs

omit [MulleStorage σ] in
theorem not_attached_of_root {s : Base σ} {n : Ref} (hroot : s.root = .nil) : ¬ Attached s n := by
  intro hn
  induction hn with
  | root hne => exact hne hroot
  | child d hn hmem hne ih => exact ih

/-! ### Calls carried out -/

/-- The nodes in the tree, by a walk. -/
def nodesOf (s : Base σ) : List Ref :=
  match Base.walk (fun _ (u : Unit) => (1, u)) () s with
  | .ok ((ns, _), _) => ns
  | .error _ => []

theorem visit_all (ns : List Ref) :
    Base.visit (fun _ (u : Unit) => (1, u)) ns () = (ns, ()) := by
  induction ns with
  | nil => rfl
  | cons n ns ih => simp [Base.visit, ih]

theorem Represents.nodesOf_eq {s : Base σ} {m : Image σ} (h : Represents s m) :
    nodesOf s = m.tree.inorder.map Entry.ref := by
  obtain ⟨⟨z, hr⟩, -⟩ := h
  rw [nodesOf, Base.walk_spec hr, visit_all]

theorem Represents.inOrder {s : Base σ} {m : Image σ} (h : Represents s m) :
    InOrder s (nodesOf s) := by
  rw [h.nodesOf_eq]
  obtain ⟨⟨z, hr⟩, -⟩ := h
  exact hr.inOrder

theorem Represents.mem_nodesOf {s : Base σ} {m : Image σ} (h : Represents s m) {n : Ref} :
    n ∈ nodesOf s ↔ Attached s n := by
  rw [h.nodesOf_eq]
  obtain ⟨⟨z, hr⟩, -⟩ := h
  rw [hr.attached_iff, slots, List.mem_map]
  simp [Entry.ref, eq_comm]

/-- Is it a node of the pool that is not in the tree? -/
def isLoose (s : Base σ) (n : Ref) : Bool := n ≠ .nil ∧ (s.mem n).isSome ∧ n ∉ nodesOf s

theorem Represents.unattached {s : Base σ} {m : Image σ} (h : Represents s m) {n : Ref}
    (hn : isLoose s n = true) : Unattached s n := by
  obtain ⟨hne, hsome, hnot⟩ := of_decide_eq_true hn
  exact ⟨hne, hsome, fun hn => hnot (h.mem_nodesOf.2 hn)⟩

/-- May the call be made? -/
def Call.check : Call → Base σ → Bool
  | freeNode n, s => isLoose s n
  | insertNode n _, s => isLoose s n
  | insertNodeBeforeNode n successor, s => isLoose s n ∧ successor ∈ nodesOf s
  | insertNodeAfterNode n predecessor, s => isLoose s n ∧ predecessor ∈ nodesOf s
  | removeNode n, s => n ∈ nodesOf s
  | markNodeAsDirty n, s => n ∈ nodesOf s ∧ Options.useDirty s.options = true
  | nextNode n, s => n ∈ nodesOf s
  | previousNode n, s => n ∈ nodesOf s
  | _, _ => true

theorem Call.pre_of_check {c : Call} {s : Base σ} (hs : ∃ m : Image σ, Represents s m)
    (h : c.check s = true) : c.Pre s := by
  obtain ⟨m, hs⟩ := hs
  cases c with
  | newNode value => trivial
  | freeNode n => exact hs.unattached h
  | insertNode n comp => exact hs.unattached h
  | insertNodeBeforeNode n successor =>
    obtain ⟨hn, hm⟩ := of_decide_eq_true h
    exact ⟨hs.unattached hn, hs.mem_nodesOf.1 hm⟩
  | insertNodeAfterNode n predecessor =>
    obtain ⟨hn, hm⟩ := of_decide_eq_true h
    exact ⟨hs.unattached hn, hs.mem_nodesOf.1 hm⟩
  | removeNode n => exact hs.mem_nodesOf.1 (of_decide_eq_true h)
  | markNodeAsDirty n =>
    obtain ⟨hn, ho⟩ := of_decide_eq_true h
    exact ⟨hs.mem_nodesOf.1 hn, ho⟩
  | walkDirty => trivial
  | findNode key comp => trivial
  | findNodeEqualOrGreater key comp => trivial
  | nextNode n => exact hs.mem_nodesOf.1 (of_decide_eq_true h)
  | previousNode n => exact hs.mem_nodesOf.1 (of_decide_eq_true h)
  | isDirty => trivial
  | getCount => trivial

theorem calls_keeps (c : Call) (s : Base σ) (hs : ∃ m : Image σ, Represents s m)
    (hp : (calls σ).Pre c s) :
    Ensures ((calls σ).exec c) s fun _ s' => ∃ m : Image σ, Represents s' m := by
  obtain ⟨m, hs⟩ := hs
  exact (exec_represents hs hp).mono fun _ _ ⟨m', _, hs'⟩ => ⟨m', hs'⟩

theorem represents_init (config : Config) :
    ∃ m : Image σ, Represents (Base.initWithConfig config : Base σ) m :=
  ⟨_, shows_init config, sound_init config⟩

/-- Calls that are carried out on a new tree are a run. -/
theorem exists_run_of_calls (config : Config) (cs : List Call) (as : List Answer) {β : Type}
    (f : Base σ → β) (b : β) (h : ((calls σ).follow Call.check cs (Base.initWithConfig config)).map
      (Prod.map id f) = some (as, b)) :
    ∃ s, (calls σ).Run (Base.initWithConfig config) (cs.zip as) s ∧
      (∃ m : Image σ, Represents s m) ∧ f s = b :=
  Interface.exists_run_of_follow (fun _ _ => Call.pre_of_check) calls_keeps (represents_init config) h

/-- A comparison of the contents. -/
def byLength (a b : VoidPtr) : ℤ := a.bytes.length - b.bytes.length

/-- A value of the given length. -/
def ofLength (k : ℕ) : VoidPtr := ⟨.user k, List.replicate k 0⟩

/-- Three nodes are inserted, with a rotation, and another one is made. -/
def threeCalls : List Call :=
  [.newNode (ofLength 0), .insertNode (.slot 0) byLength, .newNode (ofLength 2),
    .insertNode (.slot 1) byLength, .newNode (ofLength 4), .insertNode (.slot 2) byLength,
    .newNode (ofLength 3)]

def threeAnswers : List Answer :=
  [.node (.slot 0), .code 0, .node (.slot 1), .code 0, .node (.slot 2), .code 0, .node (.slot 3)]

theorem exists_run : ∃ s : Base SlotPool,
    (calls SlotPool).Run (Base.initWithConfig ⟨0, 0x4#32, 0⟩) (threeCalls.zip threeAnswers) s ∧
    InOrder s [.slot 0, .slot 1, .slot 2] ∧ Attached s (.slot 1) ∧ Unattached s (.slot 3) ∧
    s.rotations = 1 ∧ [.slot 0, .slot 1, .slot 2, .slot 3].map (valueAt s) =
      [ofLength 0, ofLength 2, ofLength 4, ofLength 3] := by
  obtain ⟨s, hrun, ⟨m, hm⟩, hs⟩ := exists_run_of_calls (σ := SlotPool) ⟨0, 0x4#32, 0⟩ threeCalls
    threeAnswers (fun s => (nodesOf s, isLoose s (.slot 3), s.rotations,
      [.slot 0, .slot 1, .slot 2, .slot 3].map (valueAt s)))
    ([.slot 0, .slot 1, .slot 2], true, 1, [ofLength 0, ofLength 2, ofLength 4, ofLength 3])
    (by decide +kernel)
  obtain ⟨hnodes, hs⟩ := Prod.mk.inj hs
  obtain ⟨hloose, hs⟩ := Prod.mk.inj hs
  have hin : InOrder s [.slot 0, .slot 1, .slot 2] := hnodes ▸ hm.inOrder
  exact ⟨s, hrun, hin, hm.mem_nodesOf.1 (by rw [hnodes]; simp), hm.unattached hloose,
    Prod.mk.inj hs⟩

end MulleRbtree
