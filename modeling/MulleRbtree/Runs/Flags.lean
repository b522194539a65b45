import MulleRbtree.Runs.Determined

/-!
# Dirty flags and markers never steer

* `Image.plain`: an image without dirty flags and markers, in the colour words, in the options and
  in the calls of the dirty callback;
* `Call.steers`: the calls that are not about flags only;
* `Evolves.plain`: such a call does to the plain image what it does to the image, and the other
  calls leave the plain image alone;
* `sameShape_of_runs`: so two trees whose options differ in `use_dirty` and `use_marker` only, and
  that see the same calls otherwise, give the same answers and have the same links and colours.
-/

namespace MulleRbtree

open BinaryTree Cells Program

variable {σ : Type} [MulleStorage σ]

/-! ### Without flags -/

namespace Options

/-- Without `use_dirty` and `use_marker`. -/
def plain (o : BitVec 32) : BitVec 32 := o &&& ~~~0xC#32

variable (o : BitVec 32)

@[simp] theorem useDirty_plain : useDirty (plain o) = false := by
  rw [useDirty, plain, BitVec.and_assoc]
  simp

@[simp] theorem useMarker_plain : useMarker (plain o) = false := by
  rw [useMarker, plain, BitVec.and_assoc]
  simp

@[simp] theorem useExtra_plain : useExtra (plain o) = useExtra o := by
  rw [useExtra, plain, BitVec.and_assoc]
  rfl

@[simp] theorem allowDuplicates_plain : allowDuplicates (plain o) = allowDuplicates o := by
  rw [allowDuplicates, plain, BitVec.and_assoc]
  rfl

end Options

/-- Anything but a call of the dirty callback. -/
def Event.isPlain : Event → Bool
  | .dirty _ _ _ => false
  | _ => true

/-- Of the colour word, the colour. -/
def Entry.plain : Entry → Entry := Entry.seen id

def Rbnode.plain (node : Rbnode) : Rbnode := { node with color := node.color.getColor }

def Env.plain (E : Env σ) : Env σ where
  nodes := E.nodes
  options := Options.plain E.options
  trace := E.trace.filter Event.isPlain
  rotations := 0
  epoch := E.epoch

def Image.plain (m : Image σ) : Image σ :=
  ⟨m.env.plain, m.spare.map Entry.plain, m.tree.image false Entry.plain⟩

omit [MulleStorage σ] in
theorem respects_plain (E : Env σ) : Respects E.stamp E.plain.stamp Entry.plain :=
  respects_seen id rfl (Options.useDirty_plain _) (Options.useMarker_plain _)

theorem value_plain (options : BitVec 32) (e : Entry) :
    e.plain.value (Options.plain options) = e.value options := by
  unfold Entry.value Item.value
  rw [Options.useExtra_plain]
  rfl

theorem matching_plain (options : BitVec 32) (comp : VoidPtr → VoidPtr → ℤ) (key : VoidPtr)
    (e : Entry) : matching (Options.plain options) comp key e.plain = matching options comp key e := by
  rw [matching, value_plain]
  rfl

@[simp] theorem halts_plain (options : BitVec 32) : halts (Options.plain options) = halts options := by
  rw [halts, halts, Options.allowDuplicates_plain]

theorem compareEvents_plain (options : BitVec 32) (key : VoidPtr) (u : List Entry) :
    compareEvents (Options.plain options) key (u.map Entry.plain) = compareEvents options key u := by
  simp only [compareEvents, List.map_map]
  exact List.map_congr_left fun e _ => by rw [Function.comp_apply, value_plain]

theorem isPlain_of_compareEvents (options : BitVec 32) (key : VoidPtr) (u : List Entry) :
    (compareEvents options key u).filter Event.isPlain = compareEvents options key u :=
  List.filter_eq_self.2 fun e he => by
    obtain ⟨b, -, rfl⟩ := List.mem_map.1 he
    rfl

theorem washEvents_not_plain (options : BitVec 32) (T : ETree) :
    (washEvents options T).filter Event.isPlain = [] := by
  induction T with
  | nil => rfl
  | node e l r ihl ihr =>
    unfold washEvents
    split_ifs
    · rw [List.filter_append, List.filter_append, ihl, ihr]
      rfl
    · rfl

omit [MulleStorage σ] in
theorem Env.plain_traced (E : Env σ) (u : List Event) :
    (E.traced u).plain = E.plain.traced (u.filter Event.isPlain) := by
  simp [plain, traced]

omit [MulleStorage σ] in
theorem Env.plain_compared (E : Env σ) (comp : VoidPtr → VoidPtr → ℤ) (key : VoidPtr) (halt : Bool)
    (T : ETree) :
    (E.traced (compareEvents E.options key (visits (matching E.options comp key) halt T))).plain =
      E.plain.traced (compareEvents E.plain.options key
        (visits (matching E.plain.options comp key) halt (T.image false Entry.plain))) := by
  have hvisits : visits (matching E.plain.options comp key) halt (T.image false Entry.plain) = _ :=
    visits_image fun e _ => matching_plain E.options comp key e
  have hevents : compareEvents E.plain.options key _ = _ := compareEvents_plain E.options key
    (visits (matching E.options comp key) halt T)
  rw [Env.plain_traced, isPlain_of_compareEvents, hvisits, hevents]

theorem Env.fresh_plain (E : Env σ) (value : VoidPtr) :
    (E.fresh value).plain = E.plain.fresh value := by
  have hcolor : (freshColor E.options).getColor = freshColor (Options.plain E.options) := by
    rw [freshColor, freshColor, Options.useDirty_plain]
    cases Options.useDirty E.options <;> rfl
  have hextra : Options.useExtra (Options.plain E.options) = Options.useExtra E.options :=
    Options.useExtra_plain _
  simp only [Entry.plain, Entry.seen, Env.fresh, Entry.fresh, Entry.item, Env.plain, hextra]
  exact congrArg (fun k => Entry.mk _ k _ _ _) hcolor

omit [MulleStorage σ] in
theorem seek_plain (E : Env σ) (comp : VoidPtr → VoidPtr → ℤ) (key : VoidPtr) (T : ETree) :
    seek (matching E.plain.options comp key) (halts E.plain.options) []
        (T.image false Entry.plain) =
      (seek (matching E.options comp key) (halts E.options) [] T).map
        (Path.image false Entry.plain) := by
  have hhalts : halts E.plain.options = halts E.options := halts_plain E.options
  rw [hhalts]
  exact seek_image (fun e _ => matching_plain E.options comp key e) (c := [])

theorem image_plug_node (c : Path Entry) (e : Entry) (l r : ETree) :
    (plug c (node e l r)).image false Entry.plain = plug (Path.image false Entry.plain c)
      (node e.plain (l.image false Entry.plain) (r.image false Entry.plain)) := image_plug

theorem labelRef_plain (u : Option Entry) : labelRef (u.map Entry.plain) = labelRef u := by
  cases u <;> rfl

/-! ### Calls -/

namespace Call

/-- Not a call that is about flags only. -/
def steers : Call → Bool
  | markNodeAsDirty _ | walkDirty | isDirty => false
  | _ => true

end Call

namespace Evolves

variable {m m' : Image σ} {c : Call} {r : Answer}

theorem plain_of_not_steers (h : Evolves m c r m') (hc : c.steers = false) :
    m'.plain = m.plain := by
  cases h with
  | @marked E F T i hi =>
    have hsoil : (soilTo E.stamp i T).image false Entry.plain = T.image false Entry.plain := by
      have hid : ∀ e : Entry, (e.soil E.stamp).plain = e.plain := Entry.seen_soil id E.stamp
      rw [image_false, image_false, map_soilTo hid]
    rw [Image.plain, hsoil]
    rfl
  | walked E F T =>
    have hwash : (wash T).image false Entry.plain = T.image false Entry.plain := by
      have hid : ∀ e : Entry, e.clean.plain = e.plain := Entry.seen_clean id
      rw [image_false, image_false, map_wash hid]
    rw [Image.plain, hwash, Env.plain_traced, washEvents_not_plain, Env.traced_nil]
    rfl
  | isDirty => rfl
  | newNode => cases hc
  | freeNode => cases hc
  | rejected => cases hc
  | inserted => cases hc
  | before => cases hc
  | after => cases hc
  | removed => cases hc
  | found => cases hc
  | reached => cases hc
  | next => cases hc
  | previous => cases hc
  | counted => cases hc

/-- Where a node can be hung in the plain tree. -/
theorem plain_notMem {T : ETree} {a : Entry} (ha : a.slot ∉ slots T) :
    a.plain.slot ∉ slots (T.image false Entry.plain) := by
  intro hmem
  obtain ⟨b, hb, he⟩ := List.mem_map.1 hmem
  obtain ⟨e, hmem', rfl⟩ := mem_inorder_image.1 hb
  exact ha (List.mem_map.2 ⟨e, hmem', he⟩)

omit [MulleStorage σ] in
theorem attach_plain (E : Env σ) (a : Entry) (g : Path Entry) :
    (attach E.stamp a g).image false Entry.plain =
      attach E.plain.stamp a.plain (Path.image false Entry.plain g) := by
  have hnext : Respects E.stamp.next E.plain.stamp.next Entry.plain := respects_plain E.advanced
  exact image_attach (respects_plain E) hnext fun t => image_soilTo hnext.follows fun _ => rfl

theorem beside_plain (d : Side) (c : Path Entry) (e : Entry) (x y : ETree) :
    Base.beside d (Path.image false Entry.plain c) e.plain (x.image false Entry.plain)
        (y.image false Entry.plain) =
      Path.image false Entry.plain (Base.beside d c e x y) :=
  (@Base.image_beside Entry.plain false d c e x y).symm

theorem plain (h : Evolves m c r m') (hc : c.steers = true) : Evolves m.plain c r m'.plain := by
  have hvalue : ∀ (E : Env σ) (a : Entry), a.plain.value E.plain.options = a.value E.options :=
    fun E a => value_plain E.options a
  have hhalts : ∀ E : Env σ, halts E.plain.options = halts E.options := fun E =>
    halts_plain E.options
  cases h with
  | marked => cases hc
  | walked => cases hc
  | isDirty => cases hc
  | newNode E F T value =>
    have h := Evolves.newNode E.plain (F.map Entry.plain) (T.image false Entry.plain) value
    rw [← Env.fresh_plain, ← Multiset.map_cons] at h
    exact h
  | freeNode E a F T =>
    rw [Image.plain, Multiset.map_cons]
    exact .freeNode E.plain a.plain _ _
  | @rejected E a F T comp hseek =>
    have hseek' : seek (matching E.plain.options comp (a.plain.value E.plain.options))
        (halts E.plain.options) [] (T.image false Entry.plain) = none := by
      rw [hvalue, seek_plain E, hseek]
      rfl
    have h := Evolves.rejected (F := F.map Entry.plain) hseek'
    rw [hvalue, hhalts, ← Env.plain_compared, ← Multiset.map_cons] at h
    exact h
  | @inserted E a F T comp g k hseek ha hk =>
    have hseek' : seek (matching E.plain.options comp (a.plain.value E.plain.options))
        (halts E.plain.options) [] (T.image false Entry.plain) =
          some (Path.image false Entry.plain g) := by
      rw [hvalue, seek_plain E, hseek]
      rfl
    have h := Evolves.inserted (F := F.map Entry.plain) (k := 0) hseek' (plain_notMem ha) (by omega)
    rw [hvalue, hhalts, ← Env.plain_compared, ← Multiset.map_cons, ← attach_plain] at h
    exact h
  | @before E a e F c l r k ha hk =>
    have ha' := plain_notMem ha
    rw [image_plug_node] at ha'
    have h := Evolves.before (E := E.plain) (F := F.map Entry.plain) (k := 0) ha' (by omega)
    rw [beside_plain, ← attach_plain, ← Multiset.map_cons, ← image_plug_node] at h
    exact h
  | @after E a e F c l r k ha hk =>
    have ha' := plain_notMem ha
    rw [image_plug_node] at ha'
    have h := Evolves.after (E := E.plain) (F := F.map Entry.plain) (k := 0) ha' (by omega)
    rw [beside_plain, ← attach_plain, ← Multiset.map_cons, ← image_plug_node] at h
    exact h
  | @removed E F c a l r k hk =>
    have hremove : (removeAt E.stamp.next c a l r).image false Entry.plain = removeAt _ _ _ _ _ :=
      image_removeAt (respects_plain E.advanced).follows
    have h := Evolves.removed (E := E.plain) (F := F.map Entry.plain) (k := 0)
      (c := Path.image false Entry.plain c) (a := a.plain) (l := l.image false Entry.plain)
      (r := r.image false Entry.plain) (by omega)
    rw [← image_plug_node] at h
    rw [Image.plain, Image.plain, hremove]
    exact h
  | found E F T key comp =>
    have h := Evolves.found E.plain (F.map Entry.plain) (T.image false Entry.plain) key comp
    have hlookup : lookup (matching E.plain.options comp key) (T.image false Entry.plain) = _ :=
      lookup_image fun e _ => matching_plain E.options comp key e
    rw [← Env.plain_compared, hlookup, labelRef_plain] at h
    exact h
  | reached E F T key comp =>
    have h := Evolves.reached E.plain (F.map Entry.plain) (T.image false Entry.plain) key comp
    have hceiling : ceiling (matching E.plain.options comp key) (T.image false Entry.plain) none = _ :=
      ceiling_image (fun e _ => matching_plain E.options comp key e) none
    rw [← Env.plain_compared, hceiling, labelRef_plain] at h
    exact h
  | next E F c e l r =>
    have h := Evolves.next E.plain (F.map Entry.plain) (Path.image false Entry.plain c) e.plain
      (l.image false Entry.plain) (r.image false Entry.plain)
    rw [← image_plug_node, Path.image_false, after_map, inorder_image_false, ← List.map_append,
      List.head?_map, labelRef_plain] at h
    exact h
  | previous E F c e l r =>
    have h := Evolves.previous E.plain (F.map Entry.plain) (Path.image false Entry.plain c) e.plain
      (l.image false Entry.plain) (r.image false Entry.plain)
    rw [← image_plug_node, Path.image_false, before_map, inorder_image_false, ← List.map_append,
      List.getLast?_map, labelRef_plain] at h
    exact h
  | counted E F T =>
    have h := Evolves.counted E.plain (F.map Entry.plain) (T.image false Entry.plain)
    rw [← length_inorder, inorder_image_false, List.length_map, length_inorder] at h
    exact h

end Evolves

/-! ### Memories -/

theorem map_plain_below (par : Ref) (t : ETree) :
    (below par t).map (fun p => (p.1, p.2.plain)) = below par (t.image false Entry.plain) := by
  have href : ∀ u : ETree, treeRef (u.image false Entry.plain) = treeRef u := fun u => by
    cases u <;> rfl
  induction t generalizing par with
  | nil => rfl
  | node e l r ihl ihr =>
    change (_ + (below _ l + below _ r)).map _ =
      {(_, e.plain.cell par (treeRef (l.image _ _)) (treeRef (r.image _ _)) .left)} + _
    rw [Multiset.map_add, Multiset.map_add, ihl, ihr, href, href]
    rfl

/-- Two trees with the same nodes, links, colours and values. -/
structure SameShape (s t : Base σ) : Prop where
  root : s.root = t.root
  nodes : s.nodes = t.nodes
  mem : ∀ n, n ≠ .nil → (s.mem n).map Rbnode.plain = (t.mem n).map Rbnode.plain

theorem Shows.sameShape {s t : Base σ} {m m' : Image σ} (hs : Shows s m) (ht : Shows t m')
    (e : m.plain = m'.plain) : SameShape s t := by
  have hcells : ∀ (z : Sentinel) (m : Image σ),
      (({z.cell} + (m.spare.map looseCell + below .nil m.tree) : Multiset Cell)).map
          (fun p => (p.1, p.2.plain)) =
        {z.cell} + (m.plain.spare.map looseCell + below .nil m.plain.tree) := by
    intro z m
    have hz : (z.cell.1, z.cell.2.plain) = z.cell := by
      simp [Sentinel.cell, Base.nilNode, Rbnode.plain, Color.getColor_eq_ite]
    have hloose : (fun p : Cell => (p.1, p.2.plain)) ∘ looseCell = looseCell ∘ Entry.plain := rfl
    rw [Multiset.map_add, Multiset.map_add, Multiset.map_singleton, map_plain_below, hz]
    change _ + (_ + _) = _ + ((m.spare.map Entry.plain).map looseCell + _)
    rw [Multiset.map_map, Multiset.map_map, hloose]
    rfl
  obtain ⟨z, hz⟩ := hs
  obtain ⟨z', hz'⟩ := ht
  have hroot : treeRef m.tree = treeRef m'.tree := by
    have h : treeRef m.plain.tree = treeRef m'.plain.tree := by rw [e]
    have href : ∀ u : ETree, treeRef (u.image false Entry.plain) = treeRef u := fun u => by
      cases u <;> rfl
    rwa [Image.plain, Image.plain, href, href] at h
  have hnodes : m.env.nodes = m'.env.nodes := congrArg (fun q => q.env.nodes) e
  have h₁ := (Holds.owns hz).map Rbnode.plain
  have h₂ := (Holds.owns hz').map Rbnode.plain
  rw [hcells] at h₁ h₂
  rw [e] at h₁
  refine ⟨(Holds.root hz).trans (hroot.trans (Holds.root hz').symm),
    (Holds.nodes_eq hz).trans (hnodes.trans (Holds.nodes_eq hz').symm), fun n hn => ?_⟩
  exact h₁.agree h₂ hn

/-! ### Runs -/

omit [MulleStorage σ] in
theorem Image.Distinct.plain {m : Image σ} (h : m.Distinct) : m.plain.Distinct := by
  have hslots : slots (m.tree.image false Entry.plain) = slots m.tree := by
    rw [slots, inorder_image_false, List.map_map]
    rfl
  have hspare : (m.spare.map Entry.plain).map Entry.slot = m.spare.map Entry.slot := by
    rw [Multiset.map_map]
    rfl
  rw [Image.Distinct, Image.plain, hslots, hspare]
  exact h

/-- A step of the plain images. -/
def PlainStep (p : Image σ) (c : Call) (r : Answer) (p' : Image σ) : Prop :=
  p.Distinct ∧ if c.steers then Evolves p c r p' ∧ p'.still = p' else p' = p

theorem run_plain {s t : Base σ} {m : Image σ} {h : List (Call × Answer)}
    (hrun : (calls σ).Run s h t) (hs : Represents s m) :
    ∃ m', Steps PlainStep m.plain h m'.plain ∧ Represents t m' := by
  have hstep : ∀ c s p, (∃ m : Image σ, Represents s m ∧ m.plain = p) → (calls σ).Pre c s →
      Ensures ((calls σ).exec c) s fun r s' =>
        ∃ p', PlainStep p c r p' ∧ ∃ m : Image σ, Represents s' m ∧ m.plain = p' := by
    rintro c s _ ⟨m, hs, rfl⟩ hp
    refine (exec_represents hs hp).mono ?_
    rintro r s' ⟨m', he, hs'⟩
    refine ⟨_, ⟨hs.1.distinct.plain, ?_⟩, m', hs', rfl⟩
    cases hc : c.steers with
    | true => exact ⟨he.plain hc, rfl⟩
    | false => exact he.plain_of_not_steers hc
  obtain ⟨_, hsteps, m', ht, rfl⟩ := hrun.simulate hstep ⟨m, hs, rfl⟩
  exact ⟨m', hsteps, ht⟩

/-- Two runs of the plain images by the same calls, apart from those about flags, are one run. -/
theorem PlainStep.agree {p p₁ p₂ : Image σ} {h k : List (Call × Answer)}
    (h₁ : Steps PlainStep p h p₁) (h₂ : Steps PlainStep p k p₂)
    (hcalls : (h.filter fun q => q.1.steers).map Prod.fst =
      (k.filter fun q => q.1.steers).map Prod.fst) :
    (h.filter fun q => q.1.steers) = (k.filter fun q => q.1.steers) ∧ p₁ = p₂ := by
  have hskip : ∀ (p : Image σ) c r p', c.steers = false → PlainStep p c r p' → p' = p := by
    intro p c r p' hc hstep
    have h := hstep.2
    rwa [hc] at h
  refine Steps.unique ?_ (h₁.skip hskip) (h₂.skip hskip) hcalls
  rintro q c r r' q₁ q₂ ⟨hc, hd, hq⟩ ⟨-, -, hq'⟩
  rw [hc, if_pos rfl] at hq hq'
  obtain ⟨hr, hstill⟩ := hq.1.determined hd hq'.1
  rw [hq.2, hq'.2] at hstill
  exact ⟨hr, hstill⟩

/-- Neither `use_dirty` nor `use_marker` matters to anything but the flags. -/
theorem sameShape_of_runs (config : Config) (options' : BitVec 32)
    (hoptions : Options.plain options' = Options.plain config.options) {s t : Base σ}
    {h k : List (Call × Answer)} (hs : (calls σ).Run (Base.initWithConfig config) h s)
    (ht : (calls σ).Run (Base.initWithConfig { config with options := options' }) k t)
    (hcalls : (h.filter fun p => p.1.steers).map Prod.fst =
      (k.filter fun p => p.1.steers).map Prod.fst) :
    (h.filter fun p => p.1.steers) = (k.filter fun p => p.1.steers) ∧ SameShape s t := by
  obtain ⟨m, hm, hrs⟩ := run_plain hs ⟨shows_init config, sound_init config⟩
  obtain ⟨m', hm', hrt⟩ := run_plain ht
    ⟨shows_init { config with options := options' }, sound_init { config with options := options' }⟩
  have hinit : (Image.init { config with options := options' } : Image σ).plain =
      (Image.init config).plain := by
    simp only [Image.init, Image.plain, Env.plain, Base.initWithConfig, Base.env, hoptions]
  rw [hinit] at hm'
  obtain ⟨hanswers, e⟩ := PlainStep.agree hm hm' hcalls
  exact ⟨hanswers, hrs.1.sameShape hrt.1 e⟩

/-! ### Setters -/

namespace Color

/-- The same dirty flag and the same marker. -/
def SameFlags (c d : Color) : Prop := c.isDirty = d.isDirty ∧ c.isMarked = d.isMarked

/-- The changes of the colour. -/
theorem sameFlags_of_colorSetter (c : Color) : SameFlags c.setRed c ∧ SameFlags c.setBlack c ∧
    ∀ k, k = red ∨ k = black → SameFlags (c.setColor k) c := by
  have hset : ∀ k : Color, SameFlags (c.setColor k.getColor) c := fun k =>
    ⟨c.isDirty_setColor_getColor k, c.isMarked_setColor_getColor k⟩
  refine ⟨⟨c.isDirty_setRed, c.isMarked_setRed⟩, ⟨c.isDirty_setBlack, c.isMarked_setBlack⟩, ?_⟩
  rintro k (rfl | rfl)
  · exact hset red
  · exact hset black

/-- The changes of a flag. -/
theorem isRed_of_flagSetter (c : Color) : c.setDirty.isRed = c.isRed ∧
    c.clearDirty.isRed = c.isRed ∧ c.setMarker.isRed = c.isRed ∧ c.clearMarker.isRed = c.isRed :=
  ⟨c.isRed_setDirty, c.isRed_clearDirty, c.isRed_setMarker, c.isRed_clearMarker⟩

end Color

end MulleRbtree
