import MulleRbtree.Tree.Value

/-!
# Augmentations

What a dirty callback may keep in the values: at every node something that depends on the node's own
part and on what is kept at its children.

* `World`: the objects that values point to, with a part that belongs to the user and the
  augmentation;
* `Augmentation`: what the callback computes, and `Augmentation.replay`, its calls one after the
  other;
* `Augmentation.Fits`: the augmentation of a node is what the callback would store now;
* `OrDirty R`: dirty nodes are exempt from `R`, so that all calls keep it (`tolerant_orDirty`);
* `replay_washEvents`: the calls of a dirty walk make every node fit.
-/

namespace MulleRbtree

open BinaryTree

/-- The objects behind the values. -/
structure World (O A : Type) where
  own : Addr → O
  aug : Addr → A

/-- A dirty callback: what it stores at a node, and what stands for the augmentation of a child that
is missing. -/
structure Augmentation (O A : Type) where
  compute : O → A → A → A
  noLeft : A
  noRight : A

namespace Augmentation

variable {O A : Type} (u : Augmentation O A)

/-- What is to be stored, from the augmentations of the children that there are. -/
def combine (own : O) (left right : Option A) : A :=
  u.compute own (left.getD u.noLeft) (right.getD u.noRight)

/-- The augmentation behind a pointer, unless it is `NULL`. -/
def readAug (aug : Addr → A) (p : VoidPtr) : Option A :=
  if p.addr = .null then none else some (aug p.addr)

/-- What a call of the callback changes. -/
def callback (own : Addr → O) (aug : Addr → A) : Event → Addr → A
  | .dirty value left right => Function.update aug value.addr
      (u.combine (own value.addr) (readAug aug left) (readAug aug right))
  | _ => aug

/-- What the calls of the callback change. -/
def replay (own : Addr → O) (aug : Addr → A) (events : List Event) : Addr → A :=
  events.foldl (u.callback own) aug

variable {u} {own : Addr → O} {aug : Addr → A}

theorem replay_append (e e' : List Event) :
    u.replay own aug (e ++ e') = u.replay own (u.replay own aug e) e' := List.foldl_append

end Augmentation

/-- Not a call of the dirty callback. -/
def Event.Silent : Event → Prop
  | .dirty _ _ _ => False
  | _ => True

section Replay

variable {O A : Type} {u : Augmentation O A} {own : Addr → O} {aug : Addr → A}
  {options : BitVec 32} {w w' : World O A} {T : ETree} {a : Entry}

theorem Augmentation.replay_silent {events : List Event} (h : ∀ e ∈ events, e.Silent) :
    u.replay own aug events = aug := by
  induction events with
  | nil => rfl
  | cons e events ih =>
    rw [List.forall_mem_cons] at h
    have he : u.callback own aug e = aug := by
      cases e with
      | dirty => exact h.1.elim
      | _ => rfl
    show u.replay own (u.callback own aug e) events = aug
    rw [he, ih h.2]

/-! ### Nodes that fit -/

/-- Where the value of a node lies. -/
def Entry.addr (options : BitVec 32) (e : Entry) : Addr := (e.value options).addr

/-- The augmentation of the node is what the callback would store now. -/
def Augmentation.Fits (u : Augmentation O A) (options : BitVec 32) (w : World O A) (e : Entry)
    (l r : Option Entry) : Prop :=
  w.aug (e.addr options) = u.combine (w.own (e.addr options))
    (l.map fun b => w.aug (b.addr options)) (r.map fun b => w.aug (b.addr options))

/-- `R` holds, unless the node is dirty. -/
def OrDirty (R : Entry → Option Entry → Option Entry → Prop) (e : Entry) (l r : Option Entry) :
    Prop := e.isDirty = true ∨ R e l r

/-- The same object in both worlds. -/
def World.Agree (w w' : World O A) (a : Addr) : Prop := w'.own a = w.own a ∧ w'.aug a = w.aug a

theorem addr_congr {e e' : Entry} (h : e'.item = e.item) : e'.addr options = e.addr options := by
  rw [Entry.addr, Entry.value, h]
  rfl

theorem map_addr_congr (options : BitVec 32) {l l' : Option Entry}
    (h : l'.map Entry.item = l.map Entry.item) :
    l'.map (Entry.addr options) = l.map (Entry.addr options) := by
  have hitem : Entry.addr options = (fun i => (Item.value options i).addr) ∘ Entry.item := rfl
  rw [hitem, ← Option.map_map, h, Option.map_map]

/-- Only the values matter. -/
theorem Augmentation.Fits.congr {e e' : Entry} {l l' r r' : Option Entry}
    (h : u.Fits options w e l r) (he : e'.item = e.item)
    (hl : l'.map Entry.item = l.map Entry.item) (hr : r'.map Entry.item = r.map Entry.item) :
    u.Fits options w e' l' r' := by
  have hmap : ∀ {v v' : Option Entry}, v'.map Entry.item = v.map Entry.item →
      (v'.map fun b => w.aug (b.addr options)) = v.map fun b => w.aug (b.addr options) := by
    intro v v' hv
    have hv' := congrArg (Option.map w.aug) (map_addr_congr options hv)
    rwa [Option.map_map, Option.map_map] at hv'
  show w.aug (e'.addr options) = _
  rw [addr_congr he, hmap hl, hmap hr]
  exact h

theorem tolerant_orDirty {R : Entry → Option Entry → Option Entry → Prop}
    (hR : ∀ {e e' : Entry} {l l' r r' : Option Entry}, R e l r → e'.item = e.item →
      l'.map Entry.item = l.map Entry.item → r'.map Entry.item = r.map Entry.item → R e' l' r') :
    Tolerant (OrDirty R) := by
  have hitem : ∀ {v v' : Option Entry}, v'.map Entry.flag = v.map Entry.flag →
      v'.map Entry.item = v.map Entry.item := by
    intro v v' hv
    have hv' := congrArg (Option.map Prod.fst) hv
    rwa [Option.map_map, Option.map_map] at hv'
  refine ⟨fun e l r he => .inl he, fun e e' l l' r r' he hl hr h => ?_⟩
  have hdirty : e'.isDirty = e.isDirty := congrArg Prod.snd he
  exact h.imp (fun h => hdirty.trans h) fun h =>
    hR h (congrArg Prod.fst he) (hitem hl) (hitem hr)

/-! ### Other worlds -/

/-- Only the objects of the node and its children matter. -/
theorem Augmentation.Fits.agree {e : Entry} {l r : Option Entry} (h : u.Fits options w e l r)
    (he : w.Agree w' (e.addr options)) (hl : ∀ b ∈ l, w.Agree w' (b.addr options))
    (hr : ∀ b ∈ r, w.Agree w' (b.addr options)) : u.Fits options w' e l r := by
  have hmap : ∀ {v : Option Entry}, (∀ b ∈ v, w.Agree w' (b.addr options)) →
      (v.map fun b => w'.aug (b.addr options)) = v.map fun b => w.aug (b.addr options) := by
    intro v hv
    cases v with
    | none => rfl
    | some b => exact congrArg some (hv b rfl).2
  show w'.aug (e.addr options) = _
  rw [he.1, he.2, hmap hl, hmap hr]
  exact h

theorem Locally.agree (h : Locally (u.Fits options w) T)
    (ha : ∀ e ∈ T.inorder, w.Agree w' (e.addr options)) : Locally (u.Fits options w') T :=
  Locally.mono_on h fun e he _ _ hl hr hfits =>
    hfits.agree (ha e he) (fun b hb => ha b (hl b hb)) fun b hb => ha b (hr b hb)

theorem Locally.agree_orDirty (h : Locally (OrDirty (u.Fits options w)) T)
    (ha : ∀ e ∈ T.inorder, w.Agree w' (e.addr options)) :
    Locally (OrDirty (u.Fits options w')) T :=
  Locally.mono_on h fun e he _ _ hl hr hfits => hfits.imp id fun hfits =>
    hfits.agree (ha e he) (fun b hb => ha b (hl b hb)) fun b hb => ha b (hr b hb)

theorem Kept.agree {o : BitVec 32} (h : Kept (OrDirty (u.Fits options w)) o T)
    (ha : ∀ e ∈ T.inorder, w.Agree w' (e.addr options)) :
    Kept (OrDirty (u.Fits options w')) o T :=
  ⟨fun ho => Locally.agree_orDirty (h.locally ho) ha, h.proper⟩

/-! ### The dirty walk -/

/-- The addresses of the values, in order. -/
def addrs (options : BitVec 32) (T : ETree) : List Addr := T.inorder.map (Entry.addr options)

@[simp] theorem addrs_node {e : Entry} {l r : ETree} :
    addrs options (node e l r) = addrs options l ++ e.addr options :: addrs options r := by
  simp [addrs]

theorem addrs_wash (T : ETree) : addrs options (wash T) = addrs options T := by
  have haddrs : ∀ u : ETree, addrs options u = (values options u).map VoidPtr.addr := fun u => by
    rw [values_eq, List.map_map]
    rfl
  rw [haddrs, values_wash, haddrs]

theorem locally_fits_wash (h : Locally (u.Fits options w) T) :
    Locally (u.Fits options w) (wash T) :=
  Locally.congr (k := Entry.item) (fun _ _ _ _ _ _ he hl hr hfits => hfits.congr he hl hr) h
    (map_wash (fun e => e.item_clean) T)

/-- Where no node is dirty, every node fits. -/
theorem locally_fits_of_clean (h : Locally (OrDirty (u.Fits options w)) T) (hT : Clean T) :
    Locally (u.Fits options w) T :=
  Locally.mono_on h fun e he _ _ _ _ hfits => hfits.resolve_left (by rw [hT e he]; simp)

theorem readAug_valueOf {v : ETree} (hv : Addr.null ∉ addrs options v) :
    Augmentation.readAug aug (valueOf options v.label?) =
      v.label?.map fun b => aug (b.addr options) := by
  cases v with
  | nil => rfl
  | node b x y =>
    have hb : (b.value options).addr ≠ .null := fun h => hv (by simp [Entry.addr, h])
    exact if_neg hb

/-- The call of the callback for a node. -/
def Entry.dirtyEvent (options : BitVec 32) (e : Entry) (l r : ETree) : Event :=
  .dirty (e.value options) (valueOf options l.label?) (valueOf options r.label?)

/-- The callback changes one object only. -/
theorem callback_of_ne {e : Entry} {l r : ETree} {a : Addr} (ha : a ≠ e.addr options) :
    u.callback own aug (e.dirtyEvent options l r) a = aug a := Function.update_of_ne ha _ _

/-- After the callback the node fits, and what is below it still does. -/
theorem locally_fits_callback {e : Entry} {l r : ETree}
    (hl : Locally (u.Fits options ⟨own, aug⟩) l) (hr : Locally (u.Fits options ⟨own, aug⟩) r)
    (hel : e.addr options ∉ addrs options l) (her : e.addr options ∉ addrs options r)
    (hnl : Addr.null ∉ addrs options l) (hnr : Addr.null ∉ addrs options r) :
    Locally (u.Fits options ⟨own, u.callback own aug (e.dirtyEvent options l r)⟩)
      (node e l r) := by
  have hne : ∀ {v : ETree}, e.addr options ∉ addrs options v →
      ∀ b ∈ v.inorder, b.addr options ≠ e.addr options :=
    fun hv b hb h => hv (h ▸ List.mem_map_of_mem hb)
  have hchild : ∀ {v : ETree}, e.addr options ∉ addrs options v → Addr.null ∉ addrs options v →
      (v.label?.map fun b => u.callback own aug (e.dirtyEvent options l r) (b.addr options)) =
        Augmentation.readAug aug (valueOf options v.label?) := by
    intro v hv hnull
    rw [readAug_valueOf hnull]
    cases v with
    | nil => rfl
    | node b x y => exact congrArg some (callback_of_ne (hne hv b (by simp)))
  refine ⟨?_, Locally.agree hl fun b hb => ⟨rfl, callback_of_ne (hne hel b hb)⟩,
    Locally.agree hr fun b hb => ⟨rfl, callback_of_ne (hne her b hb)⟩⟩
  show u.callback own aug (e.dirtyEvent options l r) (e.addr options) = _
  rw [hchild hel hnl, hchild her hnr]
  exact Function.update_self _ _ _

/-- The walk stores at the dirty nodes, children before parents, what makes every node fit. -/
theorem replay_washEvents (hup : Locally Up T)
    (hfits : Locally (OrDirty (u.Fits options ⟨own, aug⟩)) T) (hnodup : (addrs options T).Nodup)
    (hnull : Addr.null ∉ addrs options T) :
    Locally (u.Fits options ⟨own, u.replay own aug (washEvents options T)⟩) T ∧
      ∀ a, a ∉ addrs options T → u.replay own aug (washEvents options T) a = aug a := by
  induction T generalizing aug with
  | nil => exact ⟨trivial, fun _ _ => rfl⟩
  | node e l r ihl ihr =>
    unfold washEvents
    by_cases he : e.isDirty = true
    · rw [if_pos he, Augmentation.replay_append, Augmentation.replay_append]
      obtain ⟨-, hul, hur⟩ := hup
      obtain ⟨-, hfl, hfr⟩ := hfits
      rw [addrs_node] at hnodup hnull ⊢
      obtain ⟨hl, hr, hdisj⟩ := List.nodup_append.1 hnodup
      obtain ⟨her, hr⟩ := List.nodup_cons.1 hr
      simp only [List.mem_append, List.mem_cons, not_or] at hnull
      obtain ⟨hnulll, -, hnullr⟩ := hnull
      have hel : e.addr options ∉ addrs options l := fun h => hdisj _ h _ (by simp) rfl
      have hlr : ∀ a ∈ addrs options r, a ∉ addrs options l := fun a ha h =>
        hdisj _ h _ (by simp [ha]) rfl
      -- on the left; nothing on the right has been touched
      obtain ⟨hfl, hol⟩ := ihl hul hfl hl hnulll
      have hfr : Locally (OrDirty (u.Fits options
          ⟨own, u.replay own aug (washEvents options l)⟩)) r :=
        Locally.agree_orDirty hfr fun b hb => ⟨rfl, hol _ (hlr _ (List.mem_map_of_mem hb))⟩
      -- on the right; the left stays as it is
      obtain ⟨hfr, hor⟩ := ihr hur hfr hr hnullr
      have hfl : Locally (u.Fits options ⟨own, u.replay own (u.replay own aug
          (washEvents options l)) (washEvents options r)⟩) l :=
        Locally.agree hfl fun b hb => ⟨rfl, hor _ fun h => hlr _ h (List.mem_map_of_mem hb)⟩
      refine ⟨locally_fits_callback hfl hfr hel her hnulll hnullr, fun a ha => ?_⟩
      simp only [List.mem_append, List.mem_cons, not_or] at ha
      exact (callback_of_ne ha.2.1).trans ((hor a ha.2.2).trans (hol a ha.1))
    · rw [if_neg he]
      have hclean : Clean (node e l r) := clean_of_root hup (by simpa using he)
      exact ⟨locally_fits_of_clean hfits hclean, fun _ _ => rfl⟩

end Replay
end MulleRbtree
