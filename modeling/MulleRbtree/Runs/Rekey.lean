import MulleRbtree.Runs.Access
import MulleRbtree.Runs.Extra
import MulleRbtree.Runs.Matches

/-!
# Replacing payloads in a sorted tree

A payload may be replaced while its node is in the tree, if the new one goes with the payloads of
the two neighbours.  Nothing else need be looked at.

* `Precedes options comp a b`: the order that a tree with these options keeps; without duplicates it
  is strict;
* `Fits comp D s n p`: the node `n` may get the payload `p`, by what `_mulle__rbtree_previous_node`
  and `_mulle__rbtree_next_node` answer;
* `rekeyedCalls σ comp D`: the runs of one comparison, among them replacements that fit;
* `rekeyed_of_run`: such runs keep the tree sorted and its searches exact, and no other replacements
  do.
-/

namespace MulleRbtree

open BinaryTree Cells Program

/-! ### The order -/

section Order

variable {α : Type}

/-- The order of the values, strict in a tree without duplicates. -/
def Precedes (options : BitVec 32) (comp : α → α → ℤ) (a b : α) : Prop :=
  comp a b ≤ 0 ∧ (Options.allowDuplicates options = false → comp a b ≠ 0)

variable {options : BitVec 32} {comp : α → α → ℤ} {D : Set α}

theorem Precedes.trans (hp : PreorderOn comp D) {a b c : α} (ha : a ∈ D) (hb : b ∈ D) (hc : c ∈ D)
    (hab : Precedes options comp a b) (hbc : Precedes options comp b c) :
    Precedes options comp a c := by
  refine ⟨hp.trans a ha b hb c hc hab.1 hbc.1, fun ho => ?_⟩
  have hlt : comp b c < 0 := lt_of_le_of_ne hbc.1 (hbc.2 ho)
  exact (hp.lt_of_le_of_lt ha hb hc hab.1 hlt).ne

end Order

variable {options : BitVec 32} {comp : VoidPtr → VoidPtr → ℤ} {D : Set VoidPtr}

theorem Arranged.precedes {u : List Item} (h : Arranged options comp D u) :
    (u.map (Item.value options)).Pairwise (Precedes options comp) := by
  obtain ⟨hn, -, hasc, hdis⟩ := h
  have hne : u.Pairwise (· ≠ ·) := List.Nodup.of_map Item.ref hn
  have hle := List.pairwise_map.1 hasc
  refine List.pairwise_map.2 ((hle.and hne).imp_of_mem ?_)
  rintro a b ha hb ⟨hab, hdiff⟩
  exact ⟨hab, fun ho h₀ => hdiff (hdis ho a ha b hb h₀)⟩

theorem Arranged.of_precedes (hp : PreorderOn comp D) {u : List Item} (hn : (u.map Item.ref).Nodup)
    (hD : ∀ a ∈ u, a.value options ∈ D)
    (h : (u.map (Item.value options)).Pairwise (Precedes options comp)) :
    Arranged options comp D u := by
  refine ⟨hn, hD, h.imp fun hab => hab.1, fun ho => ?_⟩
  have hpair := List.pairwise_map.1 h
  have hforth : u.Pairwise fun a b => comp (a.value options) (b.value options) = 0 → a = b :=
    hpair.imp fun hab h₀ => absurd h₀ (hab.2 ho)
  have hback : u.Pairwise fun a b => comp (b.value options) (a.value options) = 0 → b = a := by
    refine hpair.imp_of_mem fun {a b} ha hb hab h₀ => ?_
    exact absurd ((hp.eq_iff (hD b hb) (hD a ha)).1 h₀) (hab.2 ho)
  intro a ha b hb
  exact hforth.forall_of_forall_of_flip (fun _ _ _ => rfl) hback ha hb

/-- Markers do not matter. -/
theorem Arranged.marking {u : List Item} (h : Arranged options comp D u) :
    Arranged (options ||| 0x8#32) comp D u := by
  have hvalue : Item.value (options ||| 0x8#32) = Item.value options := by
    funext a
    rw [Item.value, Item.value, useExtra_marking]
  obtain ⟨hn, hD, hasc, hdis⟩ := h
  refine ⟨hn, ?_, ?_, ?_⟩
  · rwa [hvalue]
  · rwa [hvalue]
  · rwa [hvalue, allowDuplicates_marking]

/-! ### Replacements that fit -/

variable {σ : Type} [MulleStorage σ]

/-- The node `n` may get the payload `p`. -/
structure Fits (comp : VoidPtr → VoidPtr → ℤ) (D : Set VoidPtr) (s : Base σ) (n : Ref) (p : VoidPtr) :
    Prop where
  domain : p ∈ D
  previous : ∀ l, Base.previousNode n s = .ok (l, s) → l ≠ .nil →
    Precedes s.options comp (valueAt s l) p
  next : ∀ r, Base.nextNode n s = .ok (r, s) → r ≠ .nil → Precedes s.options comp p (valueAt s r)

/-- In runs of one comparison, the accessors that keep the order. -/
def Rekeying (comp : VoidPtr → VoidPtr → ℤ) (D : Set VoidPtr) : Access → Base σ → Prop
  | .setPayload n p, s => Attached s n → Fits comp D s n p
  | _, _ => True

def rekeyings (σ : Type) [MulleStorage σ] (comp : VoidPtr → VoidPtr → ℤ) (D : Set VoidPtr) :
    Interface (Base σ) Fault Access Answer :=
  ⟨fun c s => c.Pre s ∧ Rekeying comp D c s, Access.exec⟩

/-- The runs of one comparison, with these accessors. -/
def rekeyedCalls (σ : Type) [MulleStorage σ] (comp : VoidPtr → VoidPtr → ℤ) (D : Set VoidPtr) :
    Interface (Base σ) Fault (Call ⊕ Access) (Answer ⊕ Answer) :=
  (sortedCalls σ comp D).sum (rekeyings σ comp D)

variable {s s' : Base σ} {n : Ref} {p : VoidPtr}

omit [MulleStorage σ] in
/-- A condition on the node to which a step leads, in terms of the nodes that are still to come. -/
theorem forall_step_iff {P : VoidPtr → Prop} {step : Base.M σ Ref} {L : List Ref}
    (hstep : step s = .ok (L.headD .nil, s)) (hL : ∀ m ∈ L, m ≠ .nil) :
    (∀ r, step s = .ok (r, s) → r ≠ .nil → P (valueAt s r)) ↔
      ∀ b ∈ (L.map (valueAt s)).head?, P b := by
  cases L with
  | nil =>
    constructor
    · intro _ b hb
      cases hb
    · intro _ r hr hne
      rw [hstep] at hr
      cases hr
      exact absurd rfl hne
  | cons m L =>
    constructor
    · intro h b hb
      obtain rfl : valueAt s m = b := by simpa using hb
      exact h m hstep (hL m List.mem_cons_self)
    · intro h r hr _
      rw [hstep] at hr
      cases hr
      exact h _ rfl

/-- What fits is a matter of the two neighbours in the sequence of values. -/
theorem Traverses.fits_iff {u v : List Ref} (ht : Traverses s (u ++ n :: v)) :
    Fits comp D s n p ↔ p ∈ D ∧
      (∀ b ∈ (u.map (valueAt s)).getLast?, Precedes s.options comp b p) ∧
      ∀ b ∈ (v.map (valueAt s)).head?, Precedes s.options comp p b := by
  have hnil : ∀ m ∈ u ++ n :: v, m ≠ .nil := fun m hm => ((ht.attached m).1 hm).ne_nil
  have hprevious := forall_step_iff (P := fun b => Precedes s.options comp b p)
    (ht.previous u n v rfl) fun m hm => hnil m (by simp_all)
  have hnext := forall_step_iff (P := Precedes s.options comp p) (ht.next u n v rfl)
    fun m hm => hnil m (by simp [hm])
  rw [List.map_reverse, List.head?_reverse] at hprevious
  rw [← hprevious, ← hnext]
  exact ⟨fun h => ⟨h.domain, h.previous, h.next⟩, fun h => ⟨h.1, h.2.1, h.2.2⟩⟩

/-! ### Runs -/

/-- A state of such a run. -/
def ShowsRekeyed (comp : VoidPtr → VoidPtr → ℤ) (D : Set VoidPtr) (s : Base σ) : Prop :=
  ∃ m : Image σ, Represents s m ∧ Arranged m.env.options comp D (items m.tree)

/-- The values of a tree in which a payload is replaced. -/
theorem values_setPayload {i : ℕ} {a : Item} {u v : List Item} (ho : Options.useExtra options = false)
    (hn : ((u ++ a :: v).map Item.ref).Nodup) (ha : a.slot = i) :
    ((u ++ a :: v).map (Item.setPayload i p)).map (Item.value options) =
      u.map (Item.value options) ++ p :: v.map (Item.value options) := by
  have hother : ∀ b ∈ u ++ v, b.setPayload i p = b := by
    intro b hb
    refine Item.setPayload_of_ne fun hbi => ?_
    rw [List.map_append, List.map_cons, List.nodup_middle, List.nodup_cons, ← List.map_append] at hn
    have href : a.ref = b.ref := congrArg Ref.slot (ha.trans hbi.symm)
    exact hn.1 (href ▸ List.mem_map_of_mem hb)
  have hu : u.map (Item.setPayload i p) = u := by
    refine (List.map_congr_left fun b hb => hother b (List.mem_append_left _ hb)).trans (List.map_id u)
  have hv : v.map (Item.setPayload i p) = v := by
    refine (List.map_congr_left fun b hb => hother b (List.mem_append_right _ hb)).trans (List.map_id v)
  rw [List.map_append, List.map_cons, hu, hv, List.map_append, List.map_cons,
    Item.value_setPayload ho ha]

section Repr

variable {E : Env σ} {z : Sentinel} {K : Multiset Cell} {T : ETree} {a : Item} {u v : List Item}

/-- What fits, in terms of what the tree stores. -/
theorem Repr.fits_iff (h : Repr s E z K T) (hT : items T = u ++ a :: v) :
    Fits comp D s a.ref p ↔ p ∈ D ∧
      (∀ b ∈ (u.map (Item.value E.options)).getLast?, Precedes E.options comp b p) ∧
      ∀ b ∈ (v.map (Item.value E.options)).head?, Precedes E.options comp p b := by
  have ht := h.traverses
  have hrefs : T.inorder.map Entry.ref = u.map Item.ref ++ a.ref :: v.map Item.ref := by
    have hmap : T.inorder.map Entry.ref = (items T).map Item.ref := by
      rw [items_eq, List.map_map]
      rfl
    rw [hmap, hT, List.map_append, List.map_cons]
  have hvalues : ∀ w : List Item, (∀ b ∈ w, b ∈ items T) →
      (w.map Item.ref).map (valueAt s) = w.map (Item.value E.options) := by
    intro w hw
    rw [List.map_map]
    exact List.map_congr_left fun b hb => h.valueAt_item (hw b hb)
  rw [hrefs] at ht
  rw [ht.fits_iff, hvalues u fun b hb => by simp [hT, hb], hvalues v fun b hb => by simp [hT, hb],
    Holds.options_eq h]

/-- A replacement keeps the order just if it fits. -/
theorem Arranged.setPayload_iff (hp : PreorderOn comp D) (hr : Repr s E z K T)
    (h : Arranged E.options comp D (items T)) (ho : Options.useExtra E.options = false)
    (hT : items T = u ++ a :: v) (hpD : p ∈ D) :
    (((items T).map (Item.setPayload a.slot p)).map (Item.value E.options)).Pairwise
      (Precedes E.options comp) ↔ Fits comp D s a.ref p := by
  have hprecedes := h.precedes
  rw [hT, List.map_append, List.map_cons] at hprecedes
  have hD : ∀ b ∈ u.map (Item.value E.options) ++ v.map (Item.value E.options), b ∈ D := by
    intro b hb
    rw [← List.map_append] at hb
    obtain ⟨x, hx, rfl⟩ := List.mem_map.1 hb
    refine h.domain x (hT ▸ ?_)
    rcases List.mem_append.1 hx with hx | hx
    · exact List.mem_append_left _ hx
    · exact List.mem_append_right _ (List.mem_cons_of_mem _ hx)
  have hn := h.nodup
  rw [hT] at hn
  have hreplace := pairwise_replace (R := Precedes E.options comp)
    (fun _ hx _ hy _ hz => Precedes.trans hp hx hy hz) hD hpD hprecedes
  rw [hr.fits_iff hT, hT, values_setPayload ho hn rfl, hreplace, and_iff_right hpD]

end Repr

theorem rekeyings_keeps (hp : PreorderOn comp D) (c : Access) (s : Base σ)
    (hs : ShowsRekeyed comp D s) (hpre : (rekeyings σ comp D).Pre c s) :
    Ensures ((rekeyings σ comp D).exec c) s fun _ s' => ShowsRekeyed comp D s' := by
  obtain ⟨m, hm, hu⟩ := hs
  obtain ⟨hc, hk⟩ := hpre
  refine (access_represents hm hc).mono fun _ s' hs' => ⟨_, hs', ?_⟩
  obtain ⟨⟨z, hr⟩, -⟩ := hm
  cases c with
  | enableMarking => exact hu.marking
  | setPayload n payload =>
    cases n with
    | nil => exact hu
    | slot i =>
      show Arranged m.env.options comp D (items (m.tree.map _))
      rw [items_setPayload]
      by_cases hi : i ∈ slots m.tree
      · rw [slots_eq, List.mem_map] at hi
        obtain ⟨a, ha, rfl⟩ := hi
        obtain ⟨u, v, hT⟩ := List.append_of_mem ha
        have hn : Attached s a.ref := hr.attached_iff_item.2 ⟨a, ha, rfl⟩
        have ho : Options.useExtra m.env.options = false := by
          have hoptions : s.options = m.env.options := Holds.options_eq hr
          exact hoptions ▸ hc.2
        have hfits : Fits comp D s a.ref payload := hk hn
        refine .of_precedes hp ?_ ?_ ((hu.setPayload_iff hp hr ho hT hfits.domain).2 hfits)
        · rw [List.map_map]
          have href : Item.ref ∘ Item.setPayload a.slot payload = Item.ref :=
            funext fun b => congrArg Ref.slot Item.setPayload_slot
          rw [href]
          exact hu.nodup
        · intro b hb
          obtain ⟨x, hx, rfl⟩ := List.mem_map.1 hb
          by_cases hslot : x.slot = a.slot
          · rw [Item.value_setPayload ho hslot]
            exact hfits.domain
          · rw [Item.setPayload_of_ne hslot]
            exact hu.domain x hx
      · have hid : (items m.tree).map (Item.setPayload i payload) = items m.tree := by
          refine (List.map_congr_left fun b hb => Item.setPayload_of_ne ?_).trans (List.map_id _)
          rintro rfl
          exact hi (by rw [slots_eq]; exact List.mem_map_of_mem hb)
        rwa [hid]
  | getGrandparent n => exact hu
  | isRootNode n => exact hu
  | getNodeFromExtra extra => exact hu

theorem rekeyedCalls_keeps (hp : PreorderOn comp D) (c : Call ⊕ Access) (s : Base σ)
    (hs : ShowsRekeyed comp D s) (hc : (rekeyedCalls σ comp D).Pre c s) :
    Ensures ((rekeyedCalls σ comp D).exec c) s fun _ s' => ShowsRekeyed comp D s' := by
  refine Interface.sum_ensures (fun c s hs hc => ?_) (rekeyings_keeps hp) c s hs hc
  obtain ⟨m, hm, hu⟩ := hs
  refine (exec_represents hm hc.1).mono ?_
  rintro r s' ⟨m', he, hm'⟩
  obtain ⟨ho, ha⟩ := he.arranges hp hm hu hc.2
  exact ⟨m', hm', ho ▸ ha.arranged hp hu⟩

/-- A tree that is sorted, with searches that are exact, and with the replacements that keep it
so. -/
structure Rekeyable (comp : VoidPtr → VoidPtr → ℤ) (D : Set VoidPtr) (s : Base σ) (ns : List Ref) :
    Prop where
  sorted : (ns.map (valueAt s)).Pairwise (Precedes s.options comp)
  finds : ∀ key ∈ D, Finds s comp key ns
  setPayload : Options.useExtra s.options = false → ∀ n ∈ ns, ∀ p ∈ D,
    ∃ s', Base.setPayload n p s = .ok ((), s') ∧ Replaces s s' n p ∧
      ((ns.map (valueAt s')).Pairwise (Precedes s.options comp) ↔ Fits comp D s n p)

theorem ShowsRekeyed.rekeyable (hp : PreorderOn comp D) (h : ShowsRekeyed comp D s) :
    ∃ ns, InOrder s ns ∧ ns.Nodup ∧ Rekeyable comp D s ns := by
  obtain ⟨m, ⟨⟨z, hr⟩, hm⟩, hu⟩ := h
  have hoptions : s.options = m.env.options := Holds.options_eq hr
  have hrefs : m.tree.inorder.map Entry.ref = (items m.tree).map Item.ref := by
    rw [items_eq, List.map_map]
    rfl
  have hvalues : ((items m.tree).map Item.ref).map (valueAt s) =
      (items m.tree).map (Item.value m.env.options) := by
    rw [List.map_map]
    exact List.map_congr_left fun b hb => hr.valueAt_item hb
  refine ⟨(items m.tree).map Item.ref, hrefs ▸ hr.inOrder, hu.nodup, ?_, fun key hkey => ?_, ?_⟩
  · rw [hvalues, hoptions]
    exact hu.precedes
  · have hasc : Ascending comp (((items m.tree).map Item.ref).map (valueAt s)) := hvalues ▸ hu.ascending
    have hcut := hasc.cut hp (fun b hb => ?_) hkey
    · rw [← hrefs] at hcut ⊢
      exact hr.finds (cut_map.1 hcut)
    · rw [hvalues] at hb
      obtain ⟨x, hx, rfl⟩ := List.mem_map.1 hb
      exact hu.domain x hx
  · intro ho n hn p hpD
    obtain ⟨a, ha, rfl⟩ := List.mem_map.1 hn
    obtain ⟨u, v, hT⟩ := List.append_of_mem ha
    have hattached : Attached s a.ref := hr.attached_iff_item.2 ⟨a, ha, rfl⟩
    obtain ⟨s', he, hreplaces⟩ := setPayload_replaces (hr.allocated hattached) ho p
    refine ⟨s', he, hreplaces, ?_⟩
    have hvalues' : ((items m.tree).map Item.ref).map (valueAt s') =
        ((items m.tree).map (Item.setPayload a.slot p)).map (Item.value m.env.options) := by
      rw [List.map_map, List.map_map]
      refine List.map_congr_left fun b hb => ?_
      show valueAt s' b.ref = (b.setPayload a.slot p).value m.env.options
      by_cases hslot : b.slot = a.slot
      · have href : b.ref = a.ref := congrArg Ref.slot hslot
        rw [href, hreplaces.value, Item.value_setPayload (hoptions ▸ ho) hslot]
      · rw [hreplaces.others b.ref fun e => hslot (Ref.slot.inj e), hr.valueAt_item hb,
          Item.setPayload_of_ne hslot]
    rw [hvalues', hoptions]
    exact hu.setPayload_iff hp hr (hoptions ▸ ho) hT hpD

/-- A run with one comparison in which payloads are replaced, each by one that fits between those of
the neighbours, keeps the tree sorted and the searches exact; and a replacement that does not fit
breaks the order at once. -/
theorem rekeyed_of_run (config : Config) (hp : PreorderOn comp D)
    {h : List ((Call ⊕ Access) × (Answer ⊕ Answer))}
    (hrun : (rekeyedCalls σ comp D).Run (Base.initWithConfig config) h s) :
    ∃ ns, InOrder s ns ∧ ns.Nodup ∧ Rekeyable comp D s ns :=
  (hrun.keeps (rekeyedCalls_keeps hp)
    ⟨_, ⟨shows_init config, sound_init config⟩, arranged_nil⟩).rekeyable hp

/-- Two nodes, the lesser of which then gets a payload that is greater, but not too great. -/
theorem rekeyed_of_run_two : ∃ s s' : Base SlotPool, InOrder s [.slot 0, .slot 1] ∧
    Base.setPayload (.slot 0) ⟨.user 2, [1]⟩ s = .ok ((), s') ∧
    ∃ ns, InOrder s' ns ∧ ns.Nodup ∧ Rekeyable byLength Set.univ s' ns := by
  let a (color : Color) (relinked : ℕ) : Entry := ⟨0, color, ⟨.user 0, []⟩, [], relinked⟩
  let b (relinked : ℕ) : Entry := ⟨1, .red, ⟨.user 1, [1, 1]⟩, [], relinked⟩
  let E : Env SlotPool := (Image.init ⟨0, 0, 0⟩ : Image SlotPool).env
  have hi₀ : E.nextSlot = 0 := by decide
  have hi₁ : E.malloced.nextSlot = 1 := by decide
  have hT₁ : attach ⟨0, 0⟩ (a .red 0) [] = node (a .black 0) nil nil := by decide
  have hT₂ : attach ⟨0, 1⟩ (b 0) [⟨.right, a .black 0, nil⟩] =
      node (a .black 1) nil (node (b 1) nil nil) := by
    decide
  obtain ⟨z, h₀⟩ := shows_init (σ := SlotPool) ⟨0, 0, 0⟩
  obtain ⟨s₁, k₁, e₁, hrun₁, h₁, hb₁⟩ := exists_insert ⟨0, 0⟩ byLength ⟨.user 0, []⟩ (a .red 0)
    h₀ ⟨rfl, 0, rfl⟩ hi₀ rfl rfl rfl hT₁
  obtain ⟨s₂, k₂, e₂, hrun₂, h₂, -⟩ := exists_insert ⟨0, 1⟩ byLength ⟨.user 1, [1, 1]⟩ (b 0)
    h₁ hb₁ hi₁ rfl rfl rfl hT₂
  have hitem : items (node (a .black 1) nil (node (b 1) nil nil)) =
      [] ++ ⟨0, ⟨.user 0, []⟩, []⟩ :: [⟨1, ⟨.user 1, [1, 1]⟩, []⟩] := rfl
  have hfits : Fits byLength Set.univ s₂ (.slot 0) ⟨.user 2, [1]⟩ := by
    refine (h₂.fits_iff hitem).2 ⟨trivial, by simp, fun c hc => ?_⟩
    have hc' : some (Item.value 0 ⟨1, ⟨.user 1, [1, 1]⟩, []⟩) = some c := hc
    obtain rfl := Option.some.inj hc'
    exact ⟨by decide, fun _ => by decide⟩
  have halloc : Allocated s₂ (.slot 0) := h₂.allocated (h₂.attached_ref (e := a .black 1) (by simp))
  have hoptions : s₂.options = 0 := Holds.options_eq h₂
  have ho : Options.useExtra s₂.options = false := by
    rw [hoptions]
    rfl
  obtain ⟨s', he, -⟩ := setPayload_replaces halloc ho ⟨.user 2, [1]⟩
  have hone : (rekeyings SlotPool byLength Set.univ).Run s₂
      [(.setPayload (.slot 0) ⟨.user 2, [1]⟩, .done)] s' :=
    .cons ⟨⟨halloc, ho⟩, fun _ => hfits⟩ (bind_eq he) (.nil s')
  exact ⟨s₂, s', h₂.inOrder, he,
    rekeyed_of_run ⟨0, 0, 0⟩ preorderOn_byLength ((hrun₁.append hrun₂).inl.append hone.inr)⟩

end MulleRbtree
