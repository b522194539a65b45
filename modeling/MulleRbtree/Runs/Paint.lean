import MulleRbtree.Runs.Flags

/-!
# What the calls do to colour words

* `Brush`: the setters of the header that rewrite a colour word; a brush for the colour leaves the
  dirty flag and the marker alone, and a brush for a flag leaves the colour alone;
* `Leads`: writes to the colour word of a node that follow upon one another;
* `Painted`: the history of the writes goes on with writes by single brushes, and these account for
  all that became of the colour words;
* `Call.brushes`, `exec_painted`: the brushes each call may use, whatever state it is called in;
* `flags_of_runs`: flags do not steer, and colours and flags do not disturb each other.
-/

namespace MulleRbtree

open Program

variable {σ : Type}

/-! ### Brushes -/

/-- The setters of the colour word. -/
inductive Brush
  /-- `_mulle_rbnode_set_red` -/
  | red
  /-- `_mulle_rbnode_set_black` -/
  | black
  /-- `_mulle_rbnode_set_color` -/
  | color (isRed : Bool)
  /-- `_mulle_rbnode_set_dirty` -/
  | dirty
  /-- `_mulle_rbnode_clear_dirty` -/
  | clean
  /-- `_mulle_rbnode_set_marker` -/
  | marker
  deriving DecidableEq

namespace Brush

def apply : Brush → Color → Color
  | red => Color.setRed
  | black => Color.setBlack
  | color true => fun c => c.setColor Color.red
  | color false => fun c => c.setColor Color.black
  | dirty => Color.setDirty
  | clean => Color.clearDirty
  | marker => Color.setMarker

/-- Is it a setter of the colour, and not of a flag? -/
def isColor : Brush → Bool
  | red | black | color _ => true
  | dirty | clean | marker => false

theorem sameFlags_apply {b : Brush} (hb : b.isColor = true) (c : Color) :
    Color.SameFlags (b.apply c) c := by
  obtain ⟨hred, hblack, hcolor⟩ := Color.sameFlags_of_colorSetter c
  cases b with
  | red => exact hred
  | black => exact hblack
  | color isRed =>
    cases isRed
    · exact hcolor _ (.inr rfl)
    · exact hcolor _ (.inl rfl)
  | dirty => cases hb
  | clean => cases hb
  | marker => cases hb

theorem isRed_apply {b : Brush} (hb : b.isColor = false) (c : Color) :
    (b.apply c).isRed = c.isRed := by
  obtain ⟨hdirty, hclean, hmarker, -⟩ := Color.isRed_of_flagSetter c
  cases b with
  | red => cases hb
  | black => cases hb
  | color isRed => cases hb
  | dirty => exact hdirty
  | clean => exact hclean
  | marker => exact hmarker

/-- What making a node may do under the given options. -/
def initial (options : BitVec 32) : Set Brush := {b | b = dirty ∧ Options.useDirty options = true}

theorem dirty_mem_initial {options : BitVec 32} (h : Options.useDirty options = true) :
    dirty ∈ initial options := ⟨rfl, h⟩

/-- What inserting and removing may do under the given options. -/
def rebalancing (options : BitVec 32) : Set Brush
  | dirty => Options.useDirty options = true
  | marker => Options.useMarker options = true
  | clean => False
  | _ => True

theorem mem_rebalancing {b : Brush} (hb : b.isColor = true) (options : BitVec 32) :
    b ∈ rebalancing options := by
  cases b with
  | red => trivial
  | black => trivial
  | color isRed => trivial
  | dirty => cases hb
  | clean => cases hb
  | marker => cases hb

end Brush

/-! ### Painted memories -/

/-- The writes to `n` among these lead from the colour word `c` to the last one, each of them
starting from what the one before has left. -/
inductive Leads (n : Ref) : Color → List Repaint → Color → Prop
  | nil (c : Color) : Leads n c [] c
  | write {c c' d : Color} {ws : List Repaint} :
      Leads n c' ws d → Leads n c (⟨n, c, c'⟩ :: ws) d
  | other {w : Repaint} {c d : Color} {ws : List Repaint} :
      w.node ≠ n → Leads n c ws d → Leads n c (w :: ws) d

theorem Leads.append {n : Ref} {c d k : Color} {ws ws' : List Repaint} (h : Leads n c ws d)
    (h' : Leads n d ws' k) : Leads n c (ws ++ ws') k := by
  induction h with
  | nil c => exact h'
  | write _ ih => exact .write (ih h')
  | other hw _ ih => exact .other hw (ih h')

/-- From `s` to `s'`, under the options `o`, colour words are written with single brushes from `P`
only, and but at the nodes in `E` these writes are all that happens to them. -/
def Painted (E : Set Ref) (o : BitVec 32) (P : Set Brush) (s s' : Base σ) : Prop :=
  s.options = o → s'.options = o ∧ ∃ ws, s'.repaints = s.repaints ++ ws ∧
    (∀ w ∈ ws, ∃ b ∈ P, w.after = b.apply w.before) ∧
    ∀ n ∉ E, ∀ node', s'.mem n = some node' →
      ∃ node, s.mem n = some node ∧ Leads n node.color ws node'.color

section

variable {E : Set Ref} {o : BitVec 32} {P : Set Brush}

/-- Nothing is written. -/
theorem Painted.of_still {s s' : Base σ} (ho : s'.options = s.options)
    (hrepaints : s'.repaints = s.repaints)
    (hmem : ∀ n ∉ E, ∀ node', s'.mem n = some node' →
      ∃ node, s.mem n = some node ∧ node'.color = node.color) : Painted E o P s s' := by
  refine fun h => ⟨ho.trans h, [], by rw [hrepaints, List.append_nil], nofun, fun n hE node' hn => ?_⟩
  obtain ⟨node, hnode, hcolor⟩ := hmem n hE node' hn
  exact ⟨node, hnode, hcolor ▸ .nil _⟩

theorem Painted.of_mem {s s' : Base σ} (ho : s'.options = s.options)
    (hrepaints : s'.repaints = s.repaints) (hmem : s'.mem = s.mem) : Painted E o P s s' :=
  .of_still ho hrepaints fun _ _ node hn => ⟨node, hmem ▸ hn, rfl⟩

instance : Std.Refl (Painted (σ := σ) E o P) := ⟨fun _ => .of_mem rfl rfl rfl⟩

instance : IsTrans (Base σ) (Painted E o P) := by
  refine ⟨fun s s' s'' h h' ho => ?_⟩
  obtain ⟨ho', ws, hrepaints, hws, hmem⟩ := h ho
  obtain ⟨ho'', ws', hrepaints', hws', hmem'⟩ := h' ho'
  refine ⟨ho'', ws ++ ws', by rw [hrepaints', hrepaints, List.append_assoc], fun w hw => ?_,
    fun n hE node'' hn'' => ?_⟩
  · rcases List.mem_append.1 hw with hw | hw
    · exact hws w hw
    · exact hws' w hw
  · obtain ⟨node', hn', hleads'⟩ := hmem' n hE node'' hn''
    obtain ⟨node, hn, hleads⟩ := hmem n hE node' hn'
    exact ⟨node, hn, hleads.append hleads'⟩

end

namespace Base

variable {α β : Type} {E : Set Ref} {o : BitVec 32} {P : Set Brush}

/-! ### Accesses -/

theorem recolor_eq {s s' : Base σ} {n : Ref} {f : Color → Color} {a : Unit}
    (h : Base.recolor n f s = .ok (a, s')) : ∃ node, s.mem n = some node ∧
      s' = { s with
        mem := Function.update s.mem n (some { node with color := f node.color })
        repaints := s.repaints ++ [⟨n, node.color, f node.color⟩] } := by
  obtain ⟨node, s₁, hread, h₁⟩ := exists_of_bind_eq h
  unfold Base.deref at hread
  split at hread
  · rename_i hn
    cases hread
    obtain ⟨_, s₂, hupdate, h₂⟩ := exists_of_bind_eq h₁
    unfold Base.update at hupdate
    rw [hn] at hupdate
    cases hupdate
    cases h₂
    exact ⟨node, hn, rfl⟩
  · cases hread

/-- With nothing but the brushes in `P`. -/
def PaintsWith (E : Set Ref) (o : BitVec 32) (P : Set Brush) (m : M σ α) : Prop :=
  Guarantees (Painted E o P) m

namespace PaintsWith

theorem pure (a : α) : PaintsWith E o P (Pure.pure a : M σ α) := Guarantees.pure a

theorem throw (e : Fault) : PaintsWith E o P (throw e : M σ α) := Guarantees.throw e

theorem bind {m : M σ α} {f : α → M σ β} (hm : PaintsWith E o P m)
    (hf : ∀ a, PaintsWith E o P (f a)) : PaintsWith E o P (m >>= f) := Guarantees.bind hm hf

theorem ite {c : Prop} [Decidable c] {m m' : M σ α} (hm : PaintsWith E o P m)
    (hm' : PaintsWith E o P m') : PaintsWith E o P (if c then m else m') :=
  Guarantees.ite (fun _ => hm) fun _ => hm'

theorem read (f : Base σ → α) : PaintsWith E o P (Base.read f) := by
  intro s a s' h
  cases h
  exact .of_mem rfl rfl rfl

theorem write {f : Base σ → Base σ} (ho : ∀ s, (f s).options = s.options)
    (hrepaints : ∀ s, (f s).repaints = s.repaints) (hmem : ∀ s, (f s).mem = s.mem) :
    PaintsWith E o P (Base.write f) := by
  intro s a s' h
  cases h
  exact .of_mem (ho s) (hrepaints s) (hmem s)

/-- The count of the rotations. -/
theorem turn : PaintsWith E o P
    (Base.write (fun s => { s with rotations := s.rotations + 1 }) : M σ Unit) :=
  write (fun _ => rfl) (fun _ => rfl) fun _ => rfl

theorem advance : PaintsWith E o P
    (Base.write (fun s => { s with epoch := s.epoch + 1 }) : M σ Unit) :=
  write (fun _ => rfl) (fun _ => rfl) fun _ => rfl

theorem deref (n : Ref) : PaintsWith E o P (Base.deref n : M σ Rbnode) := by
  intro s a s' h
  unfold Base.deref at h
  split at h
  · cases h
    exact .of_mem rfl rfl rfl
  · cases h

/-- A node is changed, but its colour word is not. -/
theorem update {n : Ref} {f : Rbnode → Rbnode} (hf : n ∉ E → ∀ node, (f node).color = node.color) :
    PaintsWith E o P (Base.update n f : M σ Unit) := by
  intro s a s' h
  unfold Base.update at h
  split at h
  · rename_i old hold
    cases h
    refine .of_still rfl rfl fun m hE node' hm => ?_
    change Function.update s.mem n (some (f old)) m = some node' at hm
    by_cases hmn : m = n
    · subst hmn
      rw [Function.update_self] at hm
      cases hm
      exact ⟨old, hold, hf hE old⟩
    · rw [Function.update_of_ne hmn] at hm
      exact ⟨node', hm, rfl⟩
  · cases h

/-- The write is recorded, with what was there before. -/
theorem recolor {b : Brush} (hb : b ∈ P) (n : Ref) :
    PaintsWith E o P (Base.recolor n b.apply : M σ Unit) := by
  intro s a s' h ho
  obtain ⟨old, hold, rfl⟩ := Base.recolor_eq h
  refine ⟨ho, [⟨n, old.color, b.apply old.color⟩], rfl, fun w hw => ?_, fun m _ node' hm => ?_⟩
  · obtain rfl := List.mem_singleton.1 hw
    exact ⟨b, hb, rfl⟩
  · change Function.update s.mem n _ m = some node' at hm
    by_cases hmn : m = n
    · subst hmn
      rw [Function.update_self] at hm
      cases hm
      exact ⟨old, hold, .write (.nil _)⟩
    · rw [Function.update_of_ne hmn] at hm
      exact ⟨node', hm, .other (Ne.symm hmn) (.nil _)⟩

theorem assert (p : Prop) [Decidable p] : PaintsWith E o P (Base.assert p : M σ Unit) :=
  ite (pure ()) (throw _)

/-- Behind an assertion it holds. -/
theorem assert_bind {p : Prop} [Decidable p] {m : M σ α} (hm : p → PaintsWith E o P m) :
    PaintsWith E o P (Base.assert p >>= fun _ => m) := by
  by_cases hp : p
  · exact (assert p).bind fun _ => hm hp
  · intro s a s' h
    have hfail : (Base.assert p >>= fun _ => m) s = .error .assertion := by
      rw [Base.assert, if_neg hp]
      rfl
    rw [hfail] at h
    cases h

theorem when {b : Bool} {m : M σ Unit} (hm : b = true → PaintsWith E o P m) :
    PaintsWith E o P (Base.when b m) := Guarantees.ite hm fun _ => pure ()

theorem andAlso {b₁ b₂ : M σ Bool} (h₁ : PaintsWith E o P b₁) (h₂ : PaintsWith E o P b₂) :
    PaintsWith E o P (Base.andAlso b₁ b₂) := h₁.bind fun _ => ite h₂ (pure _)

/-- The options are known. -/
theorem getOptions {f : BitVec 32 → M σ α} (hf : PaintsWith E o P (f o)) :
    PaintsWith E o P (Base.getOptions >>= f) := by
  intro s a s' h ho
  subst ho
  exact hf s a s' h rfl

theorem getRoot : PaintsWith E o P (Base.getRoot : M σ Ref) := read _

theorem getParent (n : Ref) : PaintsWith E o P (Base.getParent n : M σ Ref) :=
  (deref n).bind fun _ => pure _

theorem getLeft (n : Ref) : PaintsWith E o P (Base.getLeft n : M σ Ref) :=
  (deref n).bind fun _ => pure _

theorem getRight (n : Ref) : PaintsWith E o P (Base.getRight n : M σ Ref) :=
  (deref n).bind fun _ => pure _

theorem isDirty (n : Ref) : PaintsWith E o P (Base.isDirty n : M σ Bool) :=
  (deref n).bind fun _ => pure _

theorem isRed (n : Ref) : PaintsWith E o P (Base.isRed n : M σ Bool) :=
  (deref n).bind fun _ => pure _

theorem isBlack (n : Ref) : PaintsWith E o P (Base.isBlack n : M σ Bool) :=
  (deref n).bind fun _ => pure _

theorem getColor (n : Ref) : PaintsWith E o P (Base.getColor n : M σ Color) :=
  (deref n).bind fun _ => pure _

theorem setRoot (n : Ref) : PaintsWith E o P (Base.setRoot n : M σ Unit) :=
  write (fun _ => rfl) (fun _ => rfl) fun _ => rfl

theorem emit (e : Event) : PaintsWith E o P (Base.emit e : M σ Unit) :=
  write (fun _ => rfl) (fun _ => rfl) fun _ => rfl

theorem putParent (n v : Ref) : PaintsWith E o P (Base.putParent n v : M σ Unit) :=
  (read _).bind fun _ => update fun _ _ => rfl

theorem putLeft (n v : Ref) : PaintsWith E o P (Base.putLeft n v : M σ Unit) :=
  (read _).bind fun _ => update fun _ _ => rfl

theorem putRight (n v : Ref) : PaintsWith E o P (Base.putRight n v : M σ Unit) :=
  (read _).bind fun _ => update fun _ _ => rfl

theorem getNodeValue (n : Ref) : PaintsWith E o P (Base.getNodeValue n : M σ VoidPtr) :=
  ite (pure _) (.getOptions (ite ((deref n).bind fun _ => pure _) ((deref n).bind fun _ => pure _)))

theorem compare (comp : VoidPtr → VoidPtr → ℤ) (a b : VoidPtr) :
    PaintsWith E o P (Base.compare comp a b : M σ ℤ) := (emit _).bind fun _ => pure _

/-! ### Colours, flags and links -/

theorem setNodeMarked (hm : Options.useMarker o = true → Brush.marker ∈ P) (n : Ref) :
    PaintsWith E o P (Base.setNodeMarked n : M σ Unit) :=
  .getOptions (when fun ho => when fun _ => recolor (b := .marker) (hm ho) n)

theorem clearDirty (hc : Brush.clean ∈ P) (n : Ref) :
    PaintsWith E o P (Base.clearDirty n : M σ Unit) := recolor (b := .clean) hc n

theorem setRed (n : Ref) : PaintsWith E o (Brush.rebalancing o) (Base.setRed n : M σ Unit) :=
  recolor (b := .red) (Brush.mem_rebalancing rfl o) n

theorem setBlack (n : Ref) : PaintsWith E o (Brush.rebalancing o) (Base.setBlack n : M σ Unit) :=
  recolor (b := .black) (Brush.mem_rebalancing rfl o) n

theorem setColor (n : Ref) (k : Color) :
    PaintsWith E o (Brush.rebalancing o) (Base.setColor n k : M σ Unit) := by
  refine assert_bind fun hk => ?_
  rcases hk with rfl | rfl
  · exact recolor (b := .color true) (Brush.mem_rebalancing rfl o) n
  · exact recolor (b := .color false) (Brush.mem_rebalancing rfl o) n

theorem setNodeColor (n : Ref) (k : Color) :
    PaintsWith E o (Brush.rebalancing o) (Base.setNodeColor n k : M σ Unit) :=
  (assert _).bind fun _ => (assert _).bind fun _ => setColor n k

theorem setNodeRed (n : Ref) :
    PaintsWith E o (Brush.rebalancing o) (Base.setNodeRed n : M σ Unit) :=
  (assert _).bind fun _ => setColor n _

theorem setNodeBlack (n : Ref) :
    PaintsWith E o (Brush.rebalancing o) (Base.setNodeBlack n : M σ Unit) := setColor n _

theorem setMark (n : Ref) :
    PaintsWith E o (Brush.rebalancing o) (Base.setNodeMarked n : M σ Unit) := setNodeMarked id n

theorem nodeSetLeft (p n : Ref) : PaintsWith E o P (Base.nodeSetLeft p n : M σ Unit) :=
  (when fun _ => putParent n p).bind fun _ => putLeft p n

theorem nodeSetRight (p n : Ref) : PaintsWith E o P (Base.nodeSetRight p n : M σ Unit) :=
  (when fun _ => putParent n p).bind fun _ => putRight p n

theorem nodeReparent (p t : Ref) :
    PaintsWith E o (Brush.rebalancing o) (Base.nodeReparent p t : M σ Unit) := by
  refine (getParent p).bind fun _ => (putParent t _).bind fun _ => (setMark t).bind fun _ =>
    (getParent p).bind fun _ => ite (setRoot t) ?_
  refine (getParent p).bind fun _ => (getRight _).bind fun _ => bind (ite ?_ ?_) fun _ => ?_
  · exact (getParent p).bind fun _ => putRight _ t
  · exact (getParent p).bind fun _ => putLeft _ t
  · exact (getParent p).bind setMark

theorem hangNode (n parent : Ref) (direction : ℤ) :
    PaintsWith E o (Brush.rebalancing o) (Base.hangNode n parent direction : M σ Bool) := by
  refine (assert _).bind fun _ => (getParent n).bind fun _ => (assert _).bind fun _ =>
    (getLeft n).bind fun _ => (assert _).bind fun _ => (getRight n).bind fun _ =>
    (assert _).bind fun _ => (isRed n).bind fun _ => (assert _).bind fun _ =>
    (putParent n parent).bind fun _ => ite ?_ ?_
  · exact (setRoot n).bind fun _ => getRoot.bind fun _ => (setNodeBlack _).bind fun _ => pure _
  · refine getRoot.bind fun _ => (assert _).bind fun _ => bind (ite ?_ ?_) fun _ => isRed parent
    · exact (getLeft parent).bind fun _ => (assert _).bind fun _ => putLeft parent n
    · exact (getRight parent).bind fun _ => (assert _).bind fun _ => putRight parent n

theorem cutOut (y x : Ref) :
    PaintsWith E o (Brush.rebalancing o) (Base.cutOut y x : M σ Unit) := by
  refine (getParent y).bind fun _ => (putParent x _).bind fun _ => (getParent x).bind fun _ =>
    (setMark _).bind fun _ => (getParent y).bind fun _ => bind (ite (setRoot x) ?_) fun _ =>
    (getParent y).bind setMark
  exact (getParent y).bind fun _ => (getLeft _).bind fun _ =>
    ite ((getParent y).bind fun _ => putLeft _ x) ((getParent y).bind fun _ => putRight _ x)

theorem takePlace (n y x l r : Ref) :
    PaintsWith E o (Brush.rebalancing o) (Base.takePlace n y x l r : M σ Unit) := by
  refine (getParent n).bind fun _ => (putParent y _).bind fun _ => (putLeft y l).bind fun _ =>
    bind (ite (putRight y r) ?_) fun _ => (getColor n).bind fun k => (setNodeColor y k).bind
    fun _ => (getParent y).bind fun _ => bind (ite ?_ (setRoot y)) fun _ =>
    (getRight y).bind fun _ => (putParent _ y).bind fun _ => (getLeft y).bind fun _ =>
    (putParent _ y).bind fun _ => (getRight y).bind fun _ => (setMark _).bind fun _ =>
    (getLeft y).bind setMark
  · exact (putParent x y).bind fun _ => (getParent x).bind setMark
  · refine (getParent y).bind fun _ => (getLeft _).bind fun _ => bind (ite ?_ ?_) fun _ =>
      (getParent y).bind setMark
    · exact (getParent y).bind fun _ => putLeft _ y
    · exact (getParent y).bind fun _ => putRight _ y

/-! ### Recursions -/

theorem walkDirtyFrom (hc : Brush.clean ∈ P) (fuel : ℕ) (n : Ref) :
    PaintsWith E o P (Base.walkDirtyFrom fuel n : M σ Unit) := by
  induction fuel generalizing n with
  | zero => exact throw _
  | succ fuel ih =>
    exact (isDirty n).bind fun _ => ite (pure _) <| (assert _).bind fun _ =>
      (getLeft n).bind fun _ => (when fun _ => ih _).bind fun _ =>
      (getRight n).bind fun _ => (when fun _ => ih _).bind fun _ =>
      (getNodeValue n).bind fun _ => (getLeft n).bind fun _ => (getNodeValue _).bind fun _ =>
      (getRight n).bind fun _ => (getNodeValue _).bind fun _ => (emit _).bind fun _ =>
      clearDirty hc n

theorem assertCleanFrom (fuel : ℕ) (n : Ref) :
    PaintsWith E o P (Base.assertCleanFrom fuel n : M σ Unit) := by
  induction fuel generalizing n with
  | zero => exact throw _
  | succ fuel ih =>
    exact ite (pure _) <| (getLeft n).bind fun _ => (ih _).bind fun _ =>
      (getRight n).bind fun _ => (ih _).bind fun _ => (isDirty n).bind fun _ => assert _

theorem walkCount (fuel : ℕ) (n : Ref) : PaintsWith E o P (Base.walkCount fuel n : M σ ℕ) := by
  induction fuel generalizing n with
  | zero => exact throw _
  | succ fuel ih =>
    exact ite (pure _) <| (getLeft n).bind fun _ => (ih _).bind fun _ =>
      (getRight n).bind fun _ => (ih _).bind fun _ => pure _

/-! ### Loops -/

variable [MulleStorage σ]

theorem loop {step : α → M σ (α ⊕ β)} (h : ∀ a, PaintsWith E o P (step a)) (a : α) :
    PaintsWith E o P (Base.loop step a) :=
  (read _).bind fun _ => Guarantees.iterate h _ a

theorem whileLoop {cond : α → M σ Bool} {body : α → M σ α} (hc : ∀ a, PaintsWith E o P (cond a))
    (hb : ∀ a, PaintsWith E o P (body a)) (a : α) : PaintsWith E o P (Base.whileLoop cond body a) :=
  loop (fun a => (hc a).bind fun _ => ite ((hb a).bind fun _ => pure _) (pure _)) a

/-! ### Searches -/

theorem findLeftmostNode (n : Ref) : PaintsWith E o P (Base.findLeftmostNode n : M σ Ref) :=
  whileLoop (fun p => (getLeft p).bind fun _ => pure _) getLeft n

theorem findRightmostNode (n : Ref) : PaintsWith E o P (Base.findRightmostNode n : M σ Ref) :=
  whileLoop (fun p => (getRight p).bind fun _ => pure _) getRight n

/-- The way up, from children on one side. -/
theorem climb {child : Ref → M σ Ref} (h : ∀ n, PaintsWith E o P (child n)) (n : Ref) :
    PaintsWith E o P (Base.loop (fun node => do
      let parent ← Base.getParent node
      if ← Base.andAlso (return parent ≠ .nil) (do return node = (← child parent)) then
        return .inl parent
      else return .inr parent : Ref → M σ (Ref ⊕ Ref)) n) :=
  loop (fun node => (getParent node).bind fun parent =>
    (andAlso (pure _) ((h parent).bind fun _ => pure _)).bind fun _ => ite (pure _) (pure _)) n

theorem nextNode (n : Ref) : PaintsWith E o P (Base.nextNode n : M σ Ref) :=
  (getRight n).bind fun _ => ite ((getRight n).bind findLeftmostNode) (climb getRight n)

theorem previousNode (n : Ref) : PaintsWith E o P (Base.previousNode n : M σ Ref) :=
  (getLeft n).bind fun _ => ite ((getLeft n).bind findRightmostNode) (climb getLeft n)

/-- The exact search; `value` reads the value of a node. -/
theorem seekEqual {value : Ref → M σ VoidPtr} (h : ∀ n, PaintsWith E o P (value n)) (key : VoidPtr)
    (comp : VoidPtr → VoidPtr → ℤ) (n : Ref) :
    PaintsWith E o P (Base.loop (fun p => do
      if p = .nil then return .inr p
      else do
        let b_key ← value p
        let r ← Base.compare comp key b_key
        if r = 0 then return .inr p
        else if r < 0 then return .inl (← Base.getLeft p)
        else return .inl (← Base.getRight p) : Ref → M σ (Ref ⊕ Ref)) n) :=
  loop (fun p => ite (pure _) <| (h p).bind fun _ => (compare _ _ _).bind fun _ =>
    ite (pure _) <| ite ((getLeft p).bind fun _ => pure _) ((getRight p).bind fun _ => pure _)) n

theorem findNode (key : VoidPtr) (comp : VoidPtr → VoidPtr → ℤ) :
    PaintsWith E o P (Base.findNode key comp : M σ Ref) := by
  refine .getOptions (ite (.getOptions ?_) (.getOptions ?_))
  · exact (assert _).bind fun _ => getRoot.bind
      (seekEqual (fun n => (deref n).bind fun _ => pure _) key comp)
  · exact (assert _).bind fun _ => getRoot.bind
      (seekEqual (fun n => (deref n).bind fun _ => pure _) key comp)

/-- The search of an equal or greater node. -/
theorem seekEqualOrGreater {value : Ref → M σ VoidPtr} (h : ∀ n, PaintsWith E o P (value n))
    (key : VoidPtr) (comp : VoidPtr → VoidPtr → ℤ) (n : Ref) :
    PaintsWith E o P (Base.loop (fun p => do
      if p = .nil then return .inr p
      else do
        let b_key ← value p
        let r ← Base.compare comp key b_key
        if r = 0 then return .inr p
        else if r < 0 then do
          if (← Base.getLeft p) = .nil then return .inr p
          else return .inl (← Base.getLeft p)
        else do
          if (← Base.getRight p) = .nil then do
            let (_, p) ← Base.whileLoop
              (fun ((n, p) : Ref × Ref) =>
                Base.andAlso (return p ≠ .nil) (do return n = (← Base.getRight p)))
              (fun (_, p) => do return (p, ← Base.getParent p)) (p, ← Base.getParent p)
            return .inr p
          else return .inl (← Base.getRight p) : Ref → M σ (Ref ⊕ Ref)) n) := by
  refine loop (fun p => ite (pure _) <| (h p).bind fun _ => (compare _ _ _).bind fun _ =>
    ite (pure _) <| ite ?_ ?_) n
  · exact (getLeft p).bind fun _ => ite (pure _) ((getLeft p).bind fun _ => pure _)
  · refine (getRight p).bind fun _ => ite ((getParent p).bind fun _ => ?_)
      ((getRight p).bind fun _ => pure _)
    refine (whileLoop (fun q => ?_) (fun q => ?_) _).bind fun _ => pure _
    · exact andAlso (pure _) ((getRight q.2).bind fun _ => pure _)
    · exact (getParent q.2).bind fun _ => pure _

theorem findNodeEqualOrGreater (key : VoidPtr) (comp : VoidPtr → VoidPtr → ℤ) :
    PaintsWith E o P (Base.findNodeEqualOrGreater key comp : M σ Ref) := by
  refine .getOptions (ite ?_ ?_)
  · exact getRoot.bind (seekEqualOrGreater (fun n => (deref n).bind fun _ => pure _) key comp)
  · exact getRoot.bind (seekEqualOrGreater (fun n => (deref n).bind fun _ => pure _) key comp)

/-! ### Flags -/

theorem markNodeAsDirty (hd : Options.useDirty o = true → Brush.dirty ∈ P) (n : Ref) :
    PaintsWith E o P (Base.markNodeAsDirty n : M σ Unit) := by
  refine .getOptions (assert_bind fun ho => ?_)
  refine (whileLoop (fun _ => pure _) (fun n => ?_) n).bind fun _ => pure _
  exact (recolor (b := .dirty) (hd ho) n).bind fun _ => getParent n

theorem assertDirtyFlagPropagation (n : Ref) :
    PaintsWith E o P (Base.assertDirtyFlagPropagation n : M σ Unit) := by
  refine (isDirty n).bind fun _ => when fun _ => loop (fun n => ?_) n
  exact (assert _).bind fun _ => getRoot.bind fun _ => ite (pure _) <|
    (getParent n).bind fun _ => (isDirty _).bind fun _ => (assert _).bind fun _ => pure _

/-! ### Walks -/

theorem walkDirty (hc : Brush.clean ∈ P) : PaintsWith E o P (Base.walkDirty : M σ Unit) :=
  (read _).bind fun _ => getRoot.bind fun _ => (walkDirtyFrom hc _ _).bind fun _ =>
    (read _).bind fun _ => getRoot.bind fun _ => assertCleanFrom _ _

theorem getCount : PaintsWith E o P (Base.getCount : M σ ℕ) :=
  (read _).bind fun _ => getRoot.bind fun _ => walkCount _ _

/-! ### Rebalancing -/

theorem markDirty (n : Ref) :
    PaintsWith E o (Brush.rebalancing o) (Base.markNodeAsDirty n : M σ Unit) := markNodeAsDirty id n

theorem leftRotateNode (p : Ref) :
    PaintsWith E o (Brush.rebalancing o) (Base.leftRotateNode p : M σ Unit) :=
  turn.bind fun _ => (setMark p).bind fun _ => (getRight p).bind fun t =>
    (setMark t).bind fun _ => (assert _).bind fun _ => (assert _).bind fun _ =>
    (getLeft t).bind fun _ => (nodeSetRight p _).bind fun _ => (getLeft t).bind fun _ =>
    (setMark _).bind fun _ => (nodeReparent p t).bind fun _ => (putLeft t p).bind fun _ =>
    (putParent p t).bind fun _ => (getParent p).bind fun _ => (setMark _).bind fun _ =>
    .getOptions (when fun _ => (markDirty p).bind fun _ =>
      (assertDirtyFlagPropagation p).bind fun _ => assertDirtyFlagPropagation t)

theorem rightRotateNode (p : Ref) :
    PaintsWith E o (Brush.rebalancing o) (Base.rightRotateNode p : M σ Unit) :=
  turn.bind fun _ => (setMark p).bind fun _ => (getLeft p).bind fun t =>
    (setMark t).bind fun _ => (assert _).bind fun _ => (assert _).bind fun _ =>
    (getRight t).bind fun _ => (nodeSetLeft p _).bind fun _ => (getRight t).bind fun _ =>
    (setMark _).bind fun _ => (nodeReparent p t).bind fun _ => (putRight t p).bind fun _ =>
    (putParent p t).bind fun _ => (getParent p).bind fun _ => (setMark _).bind fun _ =>
    .getOptions (when fun _ => (markDirty p).bind fun _ =>
      (assertDirtyFlagPropagation p).bind fun _ => assertDirtyFlagPropagation t)

theorem redRedLeft (x : Ref) :
    PaintsWith E o (Brush.rebalancing o) (Base.redRedLeft x : M σ Ref) := by
  refine (getParent x).bind fun _ => (getParent _).bind fun _ => (getRight _).bind fun y =>
    (isRed y).bind fun _ => ite ?_ ?_
  · exact (getParent x).bind fun _ => (setNodeBlack _).bind fun _ => (getParent x).bind fun _ =>
      (getParent _).bind fun _ => (setNodeRed _).bind fun _ => (setNodeBlack y).bind fun _ =>
      (getParent x).bind getParent
  · refine (getParent x).bind fun _ => (getRight _).bind fun _ => bind (ite ?_ (pure _)) fun x => ?_
    · exact (getParent x).bind fun x => (leftRotateNode x).bind fun _ => pure _
    · exact (getParent x).bind fun _ => (setNodeBlack _).bind fun _ => (getParent x).bind fun _ =>
        (getParent _).bind fun _ => (setNodeRed _).bind fun _ => (getParent x).bind fun _ =>
        (getParent _).bind fun x => (rightRotateNode x).bind fun _ => pure _

theorem redRedRight (x : Ref) :
    PaintsWith E o (Brush.rebalancing o) (Base.redRedRight x : M σ Ref) := by
  refine (getParent x).bind fun _ => (getParent _).bind fun _ => (getLeft _).bind fun y =>
    (isRed y).bind fun _ => ite ?_ ?_
  · exact (getParent x).bind fun _ => (setNodeBlack _).bind fun _ => (getParent x).bind fun _ =>
      (getParent _).bind fun _ => (setNodeRed _).bind fun _ => (setNodeBlack y).bind fun _ =>
      (getParent x).bind getParent
  · refine (getParent x).bind fun _ => (getLeft _).bind fun _ => bind (ite ?_ (pure _)) fun x => ?_
    · exact (getParent x).bind fun x => (rightRotateNode x).bind fun _ => pure _
    · exact (getParent x).bind fun _ => (setNodeBlack _).bind fun _ => (getParent x).bind fun _ =>
        (getParent _).bind fun _ => (setNodeRed _).bind fun _ => (getParent x).bind fun _ =>
        (getParent _).bind fun x => (leftRotateNode x).bind fun _ => pure _

theorem redRedFixup (x : Ref) :
    PaintsWith E o (Brush.rebalancing o) (Base.redRedFixup x : M σ Unit) := by
  refine (whileLoop (fun x => ?_) (fun x => ?_) x).bind fun _ => getRoot.bind setNodeBlack
  · exact andAlso (getRoot.bind fun _ => pure _) ((getParent x).bind isRed)
  · exact (getParent x).bind fun _ => (getParent x).bind fun _ => (getParent _).bind fun _ =>
      (getLeft _).bind fun _ => ite (redRedLeft x) (redRedRight x)

theorem blackBlackLeft (x : Ref) :
    PaintsWith E o (Brush.rebalancing o) (Base.blackBlackLeft x : M σ (Ref × Ref)) := by
  refine (getParent x).bind fun _ => (getRight _).bind fun w => (isRed w).bind fun _ =>
    bind (ite ?_ (pure _)) fun w => ?_
  · exact (setBlack w).bind fun _ => (getParent x).bind fun _ => (setRed _).bind fun _ =>
      (getParent x).bind fun _ => (leftRotateNode _).bind fun _ => (getParent x).bind getRight
  · refine (andAlso ((getLeft w).bind isBlack) ((getRight w).bind isBlack)).bind fun _ => ite ?_ ?_
    · exact (setRed w).bind fun _ => (getParent x).bind fun _ => pure _
    · refine ((getRight w).bind isBlack).bind fun _ => bind (ite ?_ (pure _)) fun w => ?_
      · exact (getLeft w).bind fun _ => (setBlack _).bind fun _ => (setRed w).bind fun _ =>
          (rightRotateNode w).bind fun _ => (getParent x).bind getRight
      · exact (getParent x).bind fun _ => (getColor _).bind fun k => (setColor w k).bind fun _ =>
          (getParent x).bind fun _ => (setBlack _).bind fun _ => (getRight w).bind fun _ =>
          (setBlack _).bind fun _ => (getParent x).bind fun _ => (leftRotateNode _).bind fun _ =>
          getRoot.bind fun _ => pure _

theorem blackBlackRight (x : Ref) :
    PaintsWith E o (Brush.rebalancing o) (Base.blackBlackRight x : M σ (Ref × Ref)) := by
  refine (getParent x).bind fun _ => (getLeft _).bind fun w => (isRed w).bind fun _ =>
    bind (ite ?_ (pure _)) fun w => ?_
  · exact (setBlack w).bind fun _ => (getParent x).bind fun _ => (setRed _).bind fun _ =>
      (getParent x).bind fun _ => (rightRotateNode _).bind fun _ => (getParent x).bind getLeft
  · refine (andAlso ((getRight w).bind isBlack) ((getLeft w).bind isBlack)).bind fun _ => ite ?_ ?_
    · exact (setRed w).bind fun _ => (getParent x).bind fun _ => pure _
    · refine ((getLeft w).bind isBlack).bind fun _ => bind (ite ?_ (pure _)) fun w => ?_
      · exact (getRight w).bind fun _ => (setBlack _).bind fun _ => (setRed w).bind fun _ =>
          (leftRotateNode w).bind fun _ => (getParent x).bind getLeft
      · exact (getParent x).bind fun _ => (getColor _).bind fun k => (setColor w k).bind fun _ =>
          (getParent x).bind fun _ => (setBlack _).bind fun _ => (getLeft w).bind fun _ =>
          (setBlack _).bind fun _ => (getParent x).bind fun _ => (rightRotateNode _).bind fun _ =>
          getRoot.bind fun _ => pure _

theorem blackBlackFixup (x : Ref) :
    PaintsWith E o (Brush.rebalancing o) (Base.blackBlackFixup x : M σ Unit) := by
  refine (whileLoop (fun x => ?_) (fun x => ?_) x).bind fun x => (setBlack x).bind fun _ =>
    getRoot.bind setNodeBlack
  · exact andAlso (getRoot.bind fun _ => pure _) (isBlack x)
  · refine (getParent x).bind fun _ => (getLeft _).bind fun _ =>
      bind (ite (blackBlackLeft x) (blackBlackRight x)) fun q => ?_
    exact (assertDirtyFlagPropagation q.1).bind fun _ =>
      (assertDirtyFlagPropagation q.2).bind fun _ => pure _

/-! ### Inserting and removing -/

theorem attachNode (n parent : Ref) (direction : ℤ) :
    PaintsWith E o (Brush.rebalancing o) (Base.attachNode n parent direction : M σ Unit) :=
  (hangNode n parent direction).bind fun _ => advance.bind fun _ =>
    (when fun _ => redRedFixup n).bind fun _ => getRoot.bind fun _ => (assert _).bind fun _ =>
    .getOptions (when fun _ => markDirty n)

theorem descend (value : VoidPtr) (comp : VoidPtr → VoidPtr → ℤ) (y : Ref) :
    PaintsWith E o P (Base.descend value comp y : M σ (Option (Ref × ℤ))) :=
  loop (fun y => (getNodeValue y).bind fun _ => (compare _ _ _).bind fun _ => .getOptions <|
    ite (pure _) <| bind (ite (getLeft y) (getRight y)) fun _ => ite (pure _) (pure _)) y

theorem insertNode (n : Ref) (comp : VoidPtr → VoidPtr → ℤ) :
    PaintsWith E o (Brush.rebalancing o) (Base.insertNode n comp : M σ ℤ) := by
  refine (assert _).bind fun _ => getRoot.bind fun y => ite ?_ ?_
  · refine (getNodeValue n).bind fun _ => (descend _ _ y).bind fun q => ?_
    cases q with
    | none => exact pure _
    | some q => exact (attachNode n q.1 q.2).bind fun _ => pure _
  · exact (attachNode n _ _).bind fun _ => pure _

theorem insertNodeBeforeNode (n successor : Ref) :
    PaintsWith E o (Brush.rebalancing o) (Base.insertNodeBeforeNode n successor : M σ Unit) := by
  refine (assert _).bind fun _ => (assert _).bind fun _ => (assert _).bind fun _ =>
    (getLeft successor).bind fun y => ite (attachNode n successor _) ?_
  exact (loop (fun y => (getRight y).bind fun _ => ite (pure _) (pure _)) y).bind fun x =>
    attachNode n x _

theorem insertNodeAfterNode (n predecessor : Ref) :
    PaintsWith E o (Brush.rebalancing o) (Base.insertNodeAfterNode n predecessor : M σ Unit) := by
  refine (assert _).bind fun _ => (assert _).bind fun _ => (assert _).bind fun _ =>
    (getRight predecessor).bind fun y => ite (attachNode n predecessor _) ?_
  exact (loop (fun y => (getLeft y).bind fun _ => ite (pure _) (pure _)) y).bind fun x =>
    attachNode n x _

theorem markRemoved (n y x parent : Ref) :
    PaintsWith E o (Brush.rebalancing o) (Base.markRemoved n y x parent : M σ Unit) := by
  refine (getParent n).bind fun _ => bind (ite ((getParent n).bind markDirty) (pure _)) fun _ => ?_
  exact (when fun _ => markDirty y).bind fun _ => (when fun _ => markDirty parent).bind fun _ =>
    when fun _ => markDirty x

theorem unlinkNode (n : Ref) :
    PaintsWith E o (Brush.rebalancing o) (Base.unlinkNode n : M σ (Ref × Bool × Ref × Ref)) := by
  refine (assert _).bind fun _ => (setMark n).bind fun _ => (getLeft n).bind fun l =>
    (getRight n).bind fun r => (setMark l).bind fun _ => (setMark r).bind fun _ =>
    bind ?_ fun _ => bind (ite (pure _) ?_) fun q => (getLeft _).bind fun _ =>
    bind (ite (getLeft _) (getRight _)) fun x => ?_
  · exact (getLeft n).bind fun _ => ite (pure _) ((getRight n).bind fun _ => pure _)
  · exact (nextNode n).bind fun y => (setMark y).bind fun _ => (getParent y).bind fun _ => pure _
  · exact (setMark x).bind fun _ => (cutOut q.1 x).bind fun _ => (isBlack q.1).bind fun _ =>
      (when fun _ => takePlace n q.1 x l r).bind fun _ =>
      .getOptions ((when fun _ => markRemoved n q.1 x q.2).bind fun _ => pure _)

theorem freeNode (n : Ref) : PaintsWith E o P (Base.freeNode n : M σ Unit) := by
  refine (deref n).bind fun _ => ?_
  cases n with
  | nil => exact throw _
  | slot i =>
    intro s a s' h
    cases h
    refine .of_still rfl rfl fun m _ node' hm => ?_
    change Function.update s.mem (.slot i) none m = some node' at hm
    by_cases hmi : m = .slot i
    · subst hmi
      rw [Function.update_self] at hm
      cases hm
    · rw [Function.update_of_ne hmi] at hm
      exact ⟨node', hm, rfl⟩

/-- The new node is the exception. -/
theorem initNode (hd : Options.useDirty o = true → Brush.dirty ∈ P) (n : Ref) (value : VoidPtr) :
    PaintsWith {n} o P (Base.initNode n value : M σ Unit) := by
  have hn : n ∉ ({n} : Set Ref) → ∀ f : Rbnode → Rbnode, ∀ node, (f node).color = node.color :=
    fun h => absurd (Set.mem_singleton n) h
  refine (update fun h => hn h _).bind fun _ => .getOptions ?_
  refine (when fun ho => recolor (b := .dirty) (hd ho) n).bind fun _ => .getOptions (ite ?_ ?_)
  · exact (read _).bind fun _ => update fun _ _ => rfl
  · exact update fun _ _ => rfl

theorem removeNode (n : Ref) :
    PaintsWith E o (Brush.rebalancing o) (Base.removeNode n : M σ Unit) :=
  advance.bind fun _ => (unlinkNode n).bind fun q => (freeNode n).bind fun _ =>
    (when fun _ => blackBlackFixup q.1).bind fun _ =>
    (assertDirtyFlagPropagation q.1).bind fun _ =>
    (assertDirtyFlagPropagation q.2.2.1).bind fun _ => assertDirtyFlagPropagation q.2.2.2

end PaintsWith
end Base

/-! ### Calls -/

namespace Call

/-- The brushes a call may use. -/
def brushes (options : BitVec 32) : Call → Set Brush
  | insertNode _ _ | insertNodeBeforeNode _ _ | insertNodeAfterNode _ _ | removeNode _ =>
    Brush.rebalancing options
  | newNode _ => Brush.initial options
  | markNodeAsDirty _ => {Brush.dirty}
  | walkDirty => {Brush.clean}
  | _ => ∅

end Call

variable [MulleStorage σ]

theorem storageMalloc_painted {o : BitVec 32} {P : Set Brush} {s s' : Base σ} {n : Ref}
    (h : Base.storageMalloc s = .ok (n, s')) : Painted {n} o P s s' := by
  cases h
  refine .of_still rfl rfl fun m hm node' hm' => ⟨node', ?_, rfl⟩
  have hne : Function.update s.mem (.slot (MulleStorage.malloc s.nodes).1) (some default) m =
      s.mem m := Function.update_of_ne hm _ _
  exact hne ▸ hm'

/-- A new node is initialised. -/
theorem newNode_painted {s s' : Base σ} {value : VoidPtr} {n : Ref}
    (h : Base.newNode value s = .ok (n, s')) :
    Painted {n} s.options (Brush.initial s.options) s s' := by
  obtain ⟨m, s₁, hmalloc, h₁⟩ := exists_of_bind_eq h
  obtain ⟨_, s₂, hinit, h₂⟩ := exists_of_bind_eq h₁
  cases h₂
  exact trans_of _ (storageMalloc_painted hmalloc)
    (Base.PaintsWith.initNode Brush.dirty_mem_initial n value _ _ _ hinit)

/-- But for the initialisation of a new node. -/
theorem exec_paints {o : BitVec 32} {c : Call} (hc : ∀ value, c ≠ .newNode value) :
    Base.PaintsWith ∅ o (c.brushes o) (c.exec : Base.M σ Answer) := by
  cases c with
  | newNode value => exact absurd rfl (hc value)
  | freeNode n => exact (Base.PaintsWith.freeNode n).bind fun _ => .pure _
  | insertNode n comp => exact (Base.PaintsWith.insertNode n comp).bind fun _ => .pure _
  | insertNodeBeforeNode n successor =>
    exact (Base.PaintsWith.insertNodeBeforeNode n successor).bind fun _ => .pure _
  | insertNodeAfterNode n predecessor =>
    exact (Base.PaintsWith.insertNodeAfterNode n predecessor).bind fun _ => .pure _
  | removeNode n => exact (Base.PaintsWith.removeNode n).bind fun _ => .pure _
  | markNodeAsDirty n =>
    exact (Base.PaintsWith.markNodeAsDirty (fun _ => Set.mem_singleton _) n).bind fun _ => .pure _
  | walkDirty => exact (Base.PaintsWith.walkDirty (Set.mem_singleton _)).bind fun _ => .pure _
  | findNode key comp => exact (Base.PaintsWith.findNode key comp).bind fun _ => .pure _
  | findNodeEqualOrGreater key comp =>
    exact (Base.PaintsWith.findNodeEqualOrGreater key comp).bind fun _ => .pure _
  | nextNode n => exact (Base.PaintsWith.nextNode n).bind fun _ => .pure _
  | previousNode n => exact (Base.PaintsWith.previousNode n).bind fun _ => .pure _
  | isDirty =>
    exact (Base.PaintsWith.getRoot.bind Base.PaintsWith.isDirty).bind fun _ => .pure _
  | getCount => exact Base.PaintsWith.getCount.bind fun _ => .pure _

/-- Wherever a call is made, it writes to colour words with its single brushes, and this is all that
it does to those of initialised nodes. -/
theorem exec_painted {c : Call} {s s' : Base σ} {r : Answer} (h : c.exec s = .ok (r, s')) :
    ∃ ws, s'.repaints = s.repaints ++ ws ∧
      (∀ w ∈ ws, ∃ b ∈ c.brushes s.options, w.after = b.apply w.before) ∧
      ∀ n node', s'.mem n = some node' → (∃ value, c = .newNode value ∧ r = .node n) ∨
        ∃ node, s.mem n = some node ∧ Leads n node.color ws node'.color := by
  by_cases hc : ∃ value, c = .newNode value
  · obtain ⟨value, rfl⟩ := hc
    obtain ⟨a, s₁, hnew, h₁⟩ := exists_of_bind_eq h
    cases h₁
    obtain ⟨-, ws, hrepaints, hws, hmem⟩ := newNode_painted hnew rfl
    refine ⟨ws, hrepaints, hws, fun n node' hn => ?_⟩
    by_cases hna : n = a
    · exact .inl ⟨value, rfl, by rw [hna]⟩
    · exact .inr (hmem n hna node' hn)
  · obtain ⟨-, ws, hrepaints, hws, hmem⟩ := exec_paints (not_exists.1 hc) s r s' h rfl
    exact ⟨ws, hrepaints, hws, fun n node' hn => .inr (hmem n (Set.notMem_empty n) node' hn)⟩

/-! ### Flags do not steer -/

/-- Two trees whose options differ in `use_dirty` and `use_marker` only, with the same calls but for
marks and dirty walks: the answers are the same, and so are links, colours and values.  And wherever
a call is made, every single write to a colour word either changes the colour and keeps the flags,
or changes a flag and keeps the colour; these writes account for all that becomes of the colour
words of initialised nodes. -/
theorem flags_of_runs (config : Config) (options' : BitVec 32)
    (hoptions : Options.plain options' = Options.plain config.options) {s t : Base σ}
    {h k : List (Call × Answer)} (hs : (calls σ).Run (Base.initWithConfig config) h s)
    (ht : (calls σ).Run (Base.initWithConfig { config with options := options' }) k t)
    (hcalls : (h.filter fun p => p.1.steers).map Prod.fst =
      (k.filter fun p => p.1.steers).map Prod.fst) :
    ((h.filter fun p => p.1.steers) = (k.filter fun p => p.1.steers) ∧ SameShape s t) ∧
    ∀ (c : Call) (s s' : Base σ) (r : Answer), c.exec s = .ok (r, s') →
      ∃ ws, s'.repaints = s.repaints ++ ws ∧
        (∀ w ∈ ws, ∃ b ∈ c.brushes s.options, w.after = b.apply w.before ∧
          (b.isColor = true → Color.SameFlags w.after w.before) ∧
          (b.isColor = false → w.after.isRed = w.before.isRed)) ∧
        ∀ n node', s'.mem n = some node' → (∃ value, c = .newNode value ∧ r = .node n) ∨
          ∃ node, s.mem n = some node ∧ Leads n node.color ws node'.color := by
  refine ⟨sameShape_of_runs config options' hoptions hs ht hcalls, ?_⟩
  intro c s s' r hexec
  obtain ⟨ws, hrepaints, hws, hmem⟩ := exec_painted hexec
  refine ⟨ws, hrepaints, fun w hw => ?_, hmem⟩
  obtain ⟨b, hb, hafter⟩ := hws w hw
  exact ⟨b, hb, hafter, fun hcolor => hafter ▸ Brush.sameFlags_apply hcolor w.before,
    fun hflag => hafter ▸ Brush.isRed_apply hflag w.before⟩

/-- A tree with `use_dirty` in which a node has been marked, and one with `use_marker`.  Then the
inner one of the three nodes is removed from the latter, with nine writes. -/
theorem flags_of_runs_three : ∃ s t t' : Base SlotPool, InOrder s [.slot 0, .slot 1, .slot 2] ∧
    SameShape s t ∧
    [Ref.slot 0, .slot 1, .slot 2].map (fun n => (s.mem n).map Rbnode.color) =
      [some 0x81#32, some 0x80#32, some 0x01#32] ∧
    [Ref.slot 0, .slot 1, .slot 2].map (fun n => (t.mem n).map Rbnode.color) =
      [some 0x41#32, some 0x40#32, some 0x01#32] ∧
    (Call.removeNode (.slot 1)).exec t = .ok (.done, t') ∧
    ∃ ws, t'.repaints = t.repaints ++ ws ∧ ws.length = 9 ∧
      (∀ w ∈ ws, Color.SameFlags w.after w.before ∨ w.after.isRed = w.before.isRed) ∧
      ∀ n node', t'.mem n = some node' →
        ∃ node, t.mem n = some node ∧ Leads n node.color ws node'.color := by
  obtain ⟨s, hs, ⟨m, hm⟩, hsf⟩ := exists_run_of_calls (σ := SlotPool) ⟨0, 0x4#32, 0⟩
    (threeCalls ++ [.walkDirty, .markNodeAsDirty (.slot 0)]) (threeAnswers ++ [.done, .done])
    (fun s => (nodesOf s, [Ref.slot 0, .slot 1, .slot 2].map fun n => (s.mem n).map Rbnode.color))
    ([.slot 0, .slot 1, .slot 2], [some 0x81#32, some 0x80#32, some 0x01#32]) (by decide +kernel)
  obtain ⟨t, ht, -, htf⟩ := exists_run_of_calls (σ := SlotPool) ⟨0, 0x8#32, 0⟩ threeCalls threeAnswers
    (fun t => ([Ref.slot 0, .slot 1, .slot 2].map fun n => (t.mem n).map Rbnode.color,
      ((Call.removeNode (.slot 1)).exec t).toOption.map fun p =>
        (p.1, p.2.repaints.length - t.repaints.length)))
    ([some 0x41#32, some 0x40#32, some 0x01#32], some (.done, 9)) (by decide +kernel)
  obtain ⟨hnodes, hsf⟩ := Prod.mk.inj hsf
  obtain ⟨htf, hremove⟩ := Prod.mk.inj htf
  obtain ⟨⟨r, t'⟩, hexec, hcount⟩ := exists_of_toOption hremove
  obtain ⟨rfl, hcount⟩ := Prod.mk.inj hcount
  have hcount : t'.repaints.length - t.repaints.length = 9 := hcount
  obtain ⟨⟨-, hshape⟩, hwrites⟩ := flags_of_runs ⟨0, 0x4#32, 0⟩ 0x8#32 rfl hs ht rfl
  obtain ⟨ws, hrepaints, hws, hmem⟩ := hwrites _ _ _ _ hexec
  refine ⟨s, t, t', hnodes ▸ hm.inOrder, hshape, hsf, htf, hexec, ws, hrepaints, ?_, fun w hw => ?_,
    fun n node' hn => ?_⟩
  · have hlength : t'.repaints.length = t.repaints.length + ws.length := by
      rw [hrepaints, List.length_append]
    omega
  · obtain ⟨b, -, -, hcolor, hflag⟩ := hws w hw
    cases hb : b.isColor with
    | true => exact .inl (hcolor hb)
    | false => exact .inr (hflag hb)
  · obtain ⟨_, hnew, -⟩ | hleads := hmem n node' hn
    · cases hnew
    · exact hleads

end MulleRbtree
