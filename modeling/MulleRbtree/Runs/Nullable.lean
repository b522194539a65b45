import MulleRbtree.Runs.Asserts
import MulleRbtree.Runs.Traversals
import MulleRbtree.Source.Api

/-!
# Trees that may be `NULL`

The functions of `mulle-rbtree.h` without a leading underscore, and the initialisers.

* `embeds_orNull`: with a tree such a function is the one with the underscore;
* `Op.execNullable`, `Op.refusal`: the operations, and what they answer without a tree;
* `nullable_run_iff`: without a tree any run is a series of refusals, and with one it is a run of
  the operations;
* `traverses_null`, `traverses_tree`: the traversals;
* `life_of_null`: so without a tree nothing happens from beginning to end;
* `life_of_options`, `life_of_init`, `life_of_tree`: the initialisers make the start of runs that
  nothing interrupts.
-/

namespace MulleRbtree

open BinaryTree Cells Program

variable {σ : Type}

namespace Rbtree

theorem embeds_orNull {α : Type} (rval : α) (m : Base.M σ α) : Embeds some m (orNull rval m) := by
  intro s
  change (m s >>= fun p => Except.ok (p.1, some p.2)) = _
  cases m s <;> rfl

namespace Nullable

/-! ### Enumerators -/

/-- A step of an enumerator of a tree. -/
theorem embeds_next (next : Ref → Base.M σ (Option VoidPtr × Ref)) (rover : Ref) :
    Embeds some (Prod.map id some <$> next rover) (orNull (none, some rover) do
      let (item, rover) ← next rover
      return (item, some rover)) := by
  rw [← bind_pure_comp]
  exact embeds_orNull _ _

/-- `n` calls of `next`, and where the enumerator is then. -/
def takeItems (next : Option Ref → NullableM σ (Option VoidPtr × Option Ref)) :
    ℕ → Option Ref → NullableM σ (List (Option VoidPtr) × Option Ref)
  | 0, rover => return ([], rover)
  | n + 1, rover => do
    let (item, rover) ← next rover
    let (items, rover) ← takeItems next n rover
    return (item :: items, rover)

theorem embeds_takeItems {next : Ref → Base.M σ (Option VoidPtr × Ref)}
    {next' : Option Ref → NullableM σ (Option VoidPtr × Option Ref)}
    (h : ∀ rover, Embeds some (Prod.map id some <$> next rover) (next' (some rover))) (n : ℕ)
    (rover : Ref) : Embeds some (Prod.map id some <$> Rbtree.takeItems next n rover)
      (takeItems next' n (some rover)) := by
  induction n generalizing rover with
  | zero => exact fun _ => rfl
  | succ n ih =>
    rw [Rbtree.takeItems, map_bind]
    refine (h rover).bind_map fun p => ?_
    rw [map_bind]
    exact (ih p.2).bind_map fun q => .pure _

/-- An enumerator of a tree, called `k` times. -/
theorem embeds_handsOut {first : Base.M σ Ref} {next : Ref → Base.M σ (Option VoidPtr × Ref)}
    {first' : NullableM σ (Option Ref)}
    {next' : Option Ref → NullableM σ (Option VoidPtr × Option Ref)}
    (hfirst : Embeds some (some <$> first) first')
    (hnext : ∀ rover, Embeds some (Prod.map id some <$> next rover) (next' (some rover))) (k : ℕ) :
    Embeds some (Prod.map id some <$> (do Rbtree.takeItems next k (← first)))
      (do takeItems next' k (← first')) := by
  rw [map_bind]
  exact hfirst.bind_map fun rover => embeds_takeItems hnext k rover

/-- The enumerator of `NULL` hands out nothing, however often it is called. -/
theorem takeItems_null {next : Option Ref → NullableM σ (Option VoidPtr × Option Ref)}
    (h : ∀ t, next none t = .ok ((none, none), t)) (n : ℕ) (t : Option (Base σ)) :
    takeItems next n none t = .ok ((List.replicate n none, none), t) := by
  induction n with
  | zero => rfl
  | succ n ih =>
    rw [takeItems, bind_eq (h t)]
    dsimp only
    rw [bind_eq ih]
    rfl

variable [MulleStorage σ]

theorem embeds_enumerateAll : Embeds some (Rbtree.enumerateAll : Base.M σ _) enumerateAll := by
  refine (embeds_orNull _ _).bind_map fun rover => (embeds_orNull _ _).bind fun count => ?_
  refine Embeds.iterate (g := Prod.map id some) (fun p => ?_) (count + 2) ([], rover)
  rw [map_bind]
  refine (embeds_next Rbtree.enumeratorNext p.2).bind_map fun q => ?_
  obtain ⟨item | item, rover⟩ := q <;> exact .pure _

end Nullable
end Rbtree

variable [MulleStorage σ]

open Rbtree

/-! ### Operations -/

namespace Op

/-- The functions without a leading underscore. -/
def execNullable (cb : Callbacks) : Op → NullableM σ Result
  | add value => do return .code (← Nullable.add cb value)
  | remove key => do return .code (← Nullable.remove cb key)
  | removeNode n => do
    Nullable.removeNode n
    return .done
  | find key => do return .value (← Nullable.find cb key)
  | findEqualOrGreater key => do return .value (← Nullable.findEqualOrGreater cb key)
  | isEmpty => do return .flag (← Nullable.isEmpty)
  | enumerate => do return .values (← Nullable.enumerateAll)

/-- What they answer without a tree. -/
def refusal : Op → Result
  | add _ => .code EINVAL
  | remove _ => .code EINVAL
  | removeNode _ => .done
  | find _ => .value null
  | findEqualOrGreater _ => .value null
  | isEmpty => .flag true
  | enumerate => .values []

theorem execNullable_null (cb : Callbacks) (op : Op) :
    op.execNullable cb (none : Option (Base σ)) = .ok (op.refusal, none) := by
  cases op <;> rfl

theorem embeds_execNullable (cb : Callbacks) (op : Op) :
    Embeds (some : Base σ → _) (op.exec cb) (op.execNullable cb) := by
  cases op with
  | add value => exact (embeds_orNull _ _).bind fun _ => .pure _
  | remove key => exact (embeds_orNull _ _).bind fun _ => .pure _
  | removeNode n => exact (embeds_orNull _ _).bind fun _ => .pure _
  | find key => exact (embeds_orNull _ _).bind fun _ => .pure _
  | findEqualOrGreater key => exact (embeds_orNull _ _).bind fun _ => .pure _
  | isEmpty => exact (embeds_orNull _ _).bind fun _ => .pure _
  | enumerate => exact Nullable.embeds_enumerateAll.bind fun _ => .pure _

end Op

/-- The interface of the functions without a leading underscore. -/
def nullable (σ : Type) [MulleStorage σ] (cb : Callbacks) :
    Interface (Option (Base σ)) Fault Op Result :=
  ⟨fun op t => ∀ s ∈ t, op.Pre s, Op.execNullable cb⟩

/-- Without a tree every function refuses, and with one it is the function with the underscore. -/
theorem nullable_run_iff (cb : Callbacks) {t : Option (Base σ)} {h : List (Op × Result)} :
    ((nullable σ cb).Run none h t ↔ t = none ∧ ∀ p ∈ h, p.2 = p.1.refusal) ∧
    ∀ s, (nullable σ cb).Run (some s) h t ↔ ∃ s', t = some s' ∧ (operations σ cb).Run s h s' := by
  constructor
  · have hpre : ∀ op, (nullable σ cb).Pre op none := fun op s hs => nomatch hs
    exact Interface.run_stays_iff hpre (Op.execNullable_null cb)
  · intro s
    have hpre : ∀ op s, (nullable σ cb).Pre op (some s) ↔ (operations σ cb).Pre op s := fun op s =>
      ⟨fun hp => hp s rfl, fun hp _ hs => Option.some.inj hs ▸ hp⟩
    exact Interface.run_embeds_iff (Op.embeds_execNullable cb) hpre

/-! ### Traversals -/

/-- All traversals of what may be a tree go through the nodes `ns`. -/
structure TraversesNullable (value : Ref → VoidPtr) (t : Option (Base σ)) (ns : List Ref) :
    Prop where
  walk : ∀ (υ : Type) (callback : VoidPtr → υ → ℤ × υ) (userinfo : υ),
    Nullable.walk callback userinfo t =
      .ok (Base.visit (fun n => callback (value n)) ns userinfo, t)
  enumeration : ∀ k, ∃ rover,
    (do Nullable.takeItems Nullable.enumeratorNext k (← Nullable.enumerate)) t =
      .ok (((ns.take k).map (fun n => some (value n)) ++
        List.replicate (k - ns.length) none, rover), t)
  reverseenumeration : ∀ k, ∃ rover,
    (do Nullable.takeItems Nullable.reverseenumeratorNext k (← Nullable.reverseenumerate)) t =
      .ok (((ns.reverse.take k).map (fun n => some (value n)) ++
        List.replicate (k - ns.length) none, rover), t)

theorem traverses_null (value : Ref → VoidPtr) :
    TraversesNullable value (none : Option (Base σ)) [] := by
  refine ⟨fun υ callback userinfo => rfl, fun k => ⟨none, ?_⟩, fun k => ⟨none, ?_⟩⟩
  · exact (bind_eq rfl).trans (by simpa using Nullable.takeItems_null (fun _ => rfl) k none)
  · exact (bind_eq rfl).trans (by simpa using Nullable.takeItems_null (fun _ => rfl) k none)

theorem traverses_tree {s : Base σ} {m : Image σ} (hs : Represents s m) :
    ∃ ns, InOrder s ns ∧ TraversesNullable (valueAt s) (some s) ns := by
  obtain ⟨⟨z, h⟩, -⟩ := hs
  refine ⟨_, h.inOrder, fun υ callback userinfo => ?_, fun k => ?_, fun k => ?_⟩
  · exact (embeds_orNull _ _).eq_ok (Rbtree.walk_spec h callback userinfo)
  · exact ⟨_, (Nullable.embeds_handsOut (embeds_orNull _ _) (Nullable.embeds_next _) k).eq_ok
      (map_eq _ (h.traverses.enumeration k))⟩
  · have hrev := h.traverses.reverseenumeration k
    rw [List.length_reverse] at hrev
    exact ⟨_, (Nullable.embeds_handsOut (embeds_orNull _ _) (Nullable.embeds_next _) k).eq_ok
      (map_eq _ hrev)⟩

/-! ### From beginning to end -/

/-- Without a tree there is nothing to do, and nothing to end. -/
theorem life_of_null (cb : Callbacks) (value : Ref → VoidPtr) {t : Option (Base σ)}
    {h : List (Op × Result)} (hrun : (nullable σ cb).Run none h t) :
    t = none ∧ (∀ p ∈ h, p.2 = p.1.refusal) ∧ TraversesNullable value t [] ∧
      Nullable.done cb t = .ok ((), t) := by
  obtain ⟨rfl, hrefusals⟩ := (nullable_run_iff cb).1.1 hrun
  exact ⟨rfl, hrefusals, traverses_null value, rfl⟩

/-- The low-level initialisers make the start of runs in which no call faults. -/
theorem life_of_options (nodeExtra : ℕ) (options : BitVec 32) (cb : Callbacks) {s : Base σ}
    {h : List ((Call ⊕ Op) × (Answer ⊕ Result))}
    (hrun : (everything σ cb).Run (Base.initWithOptions nodeExtra options) h s) : ValidTree s ∧
      (∀ c, (everything σ cb).Pre c s → ∃ r s', (everything σ cb).exec c s = .ok (r, s')) ∧
      ∃ s', Rbtree.done cb s = .ok ((), s') := by
  have hs : ∃ m : Image σ, Represents s m := hrun.keeps everything_keeps (represents_init _)
  obtain ⟨m, hm⟩ := id hs
  exact ⟨hm.valid, everything_returns cb hs⟩

/-- `_mulle_rbtree_init` needs a comparison, and makes the tree of `_mulle__rbtree_init`. -/
theorem life_of_init (nonowned : ValueCallback) (a_comp : VoidPtr → VoidPtr → ℤ)
    (callback : Option ValueCallback) :
    ∃ cb, Rbtree.init nonowned (some a_comp) callback = .ok (cb, (Base.init : Base σ)) ∧
      cb.comparison = a_comp ∧ ∀ h s, (everything σ cb).Run Base.init h s → ValidTree s ∧
        (∀ c, (everything σ cb).Pre c s → ∃ r s', (everything σ cb).exec c s = .ok (r, s')) ∧
        ∃ s', Rbtree.done cb s = .ok ((), s') :=
  ⟨_, rfl, rfl, fun _ _ hrun => life_of_options 0 0#32 _ hrun⟩

/-- Without a comparison a configuration is rejected, and with one it makes a tree.  After any run
it can be traversed, the next operation returns, and so does the end. -/
theorem life_of_tree (nonowned : ValueCallback) (config : RbtreeConfig) :
    (config.comparison = none ∧
      (Rbtree.initWithConfig nonowned config : Except Fault (Callbacks × Base σ)) =
        .error .assertion) ∨
    ∃ cb s, Rbtree.initWithConfig nonowned config = .ok (cb, s) ∧
      config.comparison = some cb.comparison ∧ s = Base.initWithConfig config.base ∧
      ∀ h t, (nullable σ cb).Run (some s) h t → ∃ s' ns, t = some s' ∧ ValidTree s' ∧
        InOrder s' ns ∧ TraversesNullable (valueAt s') t ns ∧
        (∀ op, (nullable σ cb).Pre op t → ∃ r t', op.execNullable cb t = .ok (r, t')) ∧
        ∃ t', Nullable.done cb t = .ok ((), t') := by
  cases hcomp : config.comparison with
  | none => exact .inl ⟨rfl, by rw [Rbtree.initWithConfig, hcomp]⟩
  | some comparison =>
    refine .inr ⟨_, _, by rw [Rbtree.initWithConfig, hcomp], rfl, rfl, fun h t hrun => ?_⟩
    obtain ⟨s', rfl, hops⟩ := ((nullable_run_iff _).2 _).1 hrun
    obtain ⟨m, -, hs'⟩ := run_performs hops ⟨shows_init _, sound_init _⟩
    obtain ⟨ns, hin, htraverses⟩ := traverses_tree hs'
    refine ⟨s', ns, rfl, hs'.valid, hin, htraverses, fun op hp => ?_, ?_⟩
    · obtain ⟨r, s'', he, -⟩ := op_represents hs' (hp s' rfl)
      exact ⟨r, some s'', (Op.embeds_execNullable _ op).eq_ok he⟩
    · obtain ⟨-, s'', he⟩ := everything_returns _ ⟨m, hs'⟩
      exact ⟨some s'', (embeds_orNull _ _).eq_ok he⟩

end MulleRbtree
