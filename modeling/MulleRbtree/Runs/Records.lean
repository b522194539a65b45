import MulleRbtree.Runs.Extra
import MulleRbtree.Runs.Determined
import MulleRbtree.Tree.Image

/-!
# Payload mode and extra mode

A tree of records of `n` bytes holds pointers to them in payload mode and copies of them in extra
mode.  Either way it is a `RecordTree`, to which a comparison that depends on the contents makes no
difference where they lie.

* `SameRecord`, `ByContents`: pointers to the same record, and comparisons that see no more of a
  pointer than the record;
* `RecordTree.respond`: what adding, removing and searching make of a tree of records;
* `Performs.refines`: an operation makes the same of the records of a tree, in either mode;
* `records_of_runs`: so a tree in payload mode and one in extra mode, with the same records, give
  the same codes, find the same records, and are isomorphic.
-/

namespace MulleRbtree

open BinaryTree Cells Program

/-! ### Records -/

/-- Two pointers to the same record of `n` bytes. -/
structure SameRecord (n : ℕ) (a b : VoidPtr) : Prop where
  left : n ≤ a.bytes.length
  right : n ≤ b.bytes.length
  bytes : a.bytes.take n = b.bytes.take n

/-- `comp` depends on nothing but the records. -/
def ByContents (n : ℕ) (comp : VoidPtr → VoidPtr → ℤ) : Prop :=
  ∀ a a' b b', SameRecord n a a' → SameRecord n b b' → comp a b = comp a' b'

/-- The record alone. -/
def VoidPtr.record (n : ℕ) (v : VoidPtr) : VoidPtr := ⟨.null, v.bytes.take n⟩

theorem sameRecord_record {n : ℕ} {v : VoidPtr} (hv : n ≤ v.bytes.length) :
    SameRecord n v (v.record n) :=
  ⟨hv, by simp [VoidPtr.record, hv], by simp [VoidPtr.record]⟩

theorem SameRecord.record_eq {n : ℕ} {a b : VoidPtr} (h : SameRecord n a b) :
    a.record n = b.record n := by
  rw [VoidPtr.record, VoidPtr.record, h.bytes]

/-! ### Trees of records -/

/-- A red-black tree of records; `halt` tells that there are no duplicates. -/
structure RecordTree where
  halt : Bool
  epoch : ℕ
  tree : ETree

inductive Request
  | add (record : VoidPtr)
  | remove (key : VoidPtr)
  | find (key : VoidPtr)
  | findEqualOrGreater (key : VoidPtr)

inductive Reply
  | code (k : ℤ)
  | record (u : Option VoidPtr)

namespace RecordTree

/-- How a key compares to the records of the nodes. -/
def toward (comp : VoidPtr → VoidPtr → ℤ) (key : VoidPtr) (e : Entry) : ℤ := comp key e.payload

/-- Without flags. -/
def stamp (R : RecordTree) : Stamp := ⟨0#32, R.epoch⟩

/-- A node for a record. -/
def newcomer (record : VoidPtr) : Entry := ⟨0, Color.red, record, [], 0⟩

def respond (comp : VoidPtr → VoidPtr → ℤ) (R : RecordTree) : Request → Reply × RecordTree
  | .add record =>
    match seek (toward comp record) R.halt [] R.tree with
    | none => (.code EEXIST, R)
    | some g => (.code 0, ⟨R.halt, R.epoch + 1, attach R.stamp (newcomer record) g⟩)
  | .remove key =>
    match track (toward comp key) [] R.tree with
    | none => (.code ENOENT, R)
    | some (c, a, l, r) => (.code 0, ⟨R.halt, R.epoch + 1, unstore R.stamp c a l r⟩)
  | .find key => (.record ((lookup (toward comp key) R.tree).map Entry.payload), R)
  | .findEqualOrGreater key =>
    (.record ((ceiling (toward comp key) R.tree none).map Entry.payload), R)

end RecordTree

/-! ### The records of a tree -/

/-- Of a node, the record it holds. -/
def Item.record (n : ℕ) (options : BitVec 32) (a : Item) : Item :=
  ⟨0, (a.value options).record n, []⟩

def Entry.record (n : ℕ) (options : BitVec 32) : Entry → Entry := Entry.seen (Item.record n options)

variable {σ : Type}

def Image.records (n : ℕ) (m : Image σ) : RecordTree :=
  ⟨halts m.env.options, m.env.epoch, m.tree.image false (Entry.record n m.env.options)⟩

/-- A pointer to a record. -/
def IsRecord (n : ℕ) (v : VoidPtr) : Prop := v.addr ≠ .null ∧ n ≤ v.bytes.length

variable [MulleStorage σ]

/-- The nodes hold records of `n` bytes, for which there is room. -/
structure HoldsRecords (n : ℕ) (m : Image σ) : Prop where
  fits : Options.useExtra m.env.options = true → n ≤ m.env.extraSize
  stored : ∀ a ∈ items m.tree, IsRecord n (a.value m.env.options)

/-! ### Operations on records -/

/-- What an operation asks of a tree of records. -/
inductive Asks (n : ℕ) (cb : Callbacks) (E : Env σ) : Op → Request → Prop
  | add {v : VoidPtr} (hv : IsRecord n (E.kept cb v)) :
      Asks n cb E (.add v) (.add ((E.kept cb v).record n))
  | remove {key : VoidPtr} (hkey : n ≤ key.bytes.length) :
      Asks n cb E (.remove key) (.remove (key.record n))
  | find {key : VoidPtr} (hkey : n ≤ key.bytes.length) :
      Asks n cb E (.find key) (.find (key.record n))
  | findEqualOrGreater {key : VoidPtr} (hkey : n ≤ key.bytes.length) :
      Asks n cb E (.findEqualOrGreater key) (.findEqualOrGreater (key.record n))

/-- What an answer tells about the records. -/
inductive Tells (n : ℕ) : Result → Reply → Prop
  | code (k : ℤ) : Tells n (.code k) (.code k)
  | missing : Tells n (.value null) (.record none)
  | record {v : VoidPtr} (hv : IsRecord n v) : Tells n (.value v) (.record (some (v.record n)))

section Refines

variable {n : ℕ} {cb : Callbacks} {E : Env σ} {F : Multiset Entry} {T l r : ETree} {c : Path Entry}
  {a : Entry} {v key : VoidPtr}

theorem respects_record (n : ℕ) (options : BitVec 32) (epoch : ℕ) :
    Respects ⟨options, epoch⟩ ⟨0#32, epoch⟩ (Entry.record n options) := by
  have hdirty : Options.useDirty 0#32 = false := by decide
  have hmarker : Options.useMarker 0#32 = false := by decide
  exact respects_seen _ rfl hdirty hmarker

theorem isRecord_of_mem (hm : HoldsRecords n (⟨E, F, T⟩ : Image σ)) (ha : a ∈ T.inorder) :
    IsRecord n (a.value E.options) := by
  refine hm.stored a.item ?_
  rw [items_eq]
  exact List.mem_map_of_mem ha

/-- The value of a node is looked at by its record only. -/
theorem toward_record (hcomp : ByContents n cb.comparison) (hkey : n ≤ key.bytes.length)
    (hm : HoldsRecords n (⟨E, F, T⟩ : Image σ)) :
    Everywhere (fun e => RecordTree.toward cb.comparison (key.record n) (e.record n E.options) =
      matching E.options cb.comparison key e) T := by
  intro e he
  have hstored := isRecord_of_mem hm he
  exact (hcomp _ _ _ _ (sameRecord_record hkey) (sameRecord_record hstored.2)).symm

/-- The record of a new node is the record it is made for. -/
theorem record_newcomer (hm : HoldsRecords n (⟨E, F, T⟩ : Image σ)) (hv : IsRecord n (E.kept cb v)) :
    IsRecord n ((E.newcomer cb v).value E.options) ∧
      ((E.newcomer cb v).value E.options).record n = (E.kept cb v).record n := by
  have hvalue : (E.newcomer cb v).value E.options = stored _ _ _ _ := value_fresh _ _
  rw [hvalue, stored]
  split_ifs with hx
  · have htake := take_memcpy_of_le (hm.fits hx) hv.2
    refine ⟨⟨Addr.area_ne_null, ?_⟩, ?_⟩
    · rw [length_memcpy]
      exact hm.fits hx
    · rw [VoidPtr.record, VoidPtr.record, htake]
  · exact ⟨hv, rfl⟩

theorem newcomer_record (hm : HoldsRecords n (⟨E, F, T⟩ : Image σ)) (hv : IsRecord n (E.kept cb v)) :
    (E.newcomer cb v).record n E.options = RecordTree.newcomer ((E.kept cb v).record n) := by
  have hcolor : (freshColor E.options).getColor = Color.red := by
    rw [Color.getColor_eq_ite, isRed_freshColor]
    rfl
  have hrecord := (record_newcomer hm hv).2
  rw [Entry.record, Entry.seen]
  change Entry.mk 0 (freshColor E.options).getColor (((E.newcomer cb v).value E.options).record n)
    [] 0 = _
  rw [hcolor, hrecord]
  rfl

theorem seek_record (hcomp : ByContents n cb.comparison) (hkey : n ≤ key.bytes.length)
    (hm : HoldsRecords n (⟨E, F, T⟩ : Image σ)) :
    seek (RecordTree.toward cb.comparison (key.record n)) (halts E.options) []
        (T.image false (Entry.record n E.options)) =
      (seek (matching E.options cb.comparison key) (halts E.options) [] T).map
        (Path.image false (Entry.record n E.options)) :=
  seek_image (toward_record hcomp hkey hm) (c := [])

/-- The place for a record is the place for its copy. -/
theorem place_record (hcomp : ByContents n cb.comparison)
    (hm : HoldsRecords n (⟨E, F, T⟩ : Image σ)) (hv : IsRecord n (E.kept cb v)) :
    seek (RecordTree.toward cb.comparison ((E.kept cb v).record n)) (halts E.options) []
        (T.image false (Entry.record n E.options)) =
      (E.place cb T v).map (Path.image false (Entry.record n E.options)) := by
  obtain ⟨hvalue, hrecord⟩ := record_newcomer hm hv
  rw [← hrecord]
  exact seek_record hcomp hvalue.2 hm

omit [MulleStorage σ] in
theorem attach_record (a : Entry) (g : Path Entry) :
    (attach E.stamp a g).image false (Entry.record n E.options) =
      attach ⟨0#32, E.epoch⟩ (a.record n E.options)
        (Path.image false (Entry.record n E.options) g) := by
  have hnext : Respects E.stamp.next ⟨0#32, E.epoch + 1⟩ (Entry.record n E.options) :=
    respects_record n E.options (E.epoch + 1)
  have hdirty : Options.useDirty 0#32 = false := by decide
  exact image_attach (respects_record n E.options E.epoch) hnext fun t =>
    image_soilTo_of_clean hnext.follows hdirty

omit [MulleStorage σ] in
theorem unstore_record (c : Path Entry) (a : Entry) (l r : ETree) :
    (unstore E.stamp c a l r).image false (Entry.record n E.options) =
      unstore ⟨0#32, E.epoch⟩ (Path.image false (Entry.record n E.options) c)
        (a.record n E.options) (l.image false (Entry.record n E.options))
        (r.image false (Entry.record n E.options)) :=
  image_unstore (respects_record n E.options E.epoch) (respects_record n E.options (E.epoch + 1))

omit [MulleStorage σ] in
theorem wash_record (T : ETree) : (wash T).image false (Entry.record n E.options) =
    T.image false (Entry.record n E.options) := by
  have hclean : ∀ e : Entry, e.clean.record n E.options = e.record n E.options :=
    Entry.seen_clean _
  rw [image_false, image_false, map_wash hclean]

omit [MulleStorage σ] in
theorem track_of_lookup (hd : (⟨E, F, plug c (node a l r)⟩ : Image σ).Distinct)
    (hfind : lookup (matching E.options cb.comparison key) (plug c (node a l r)) = some a) :
    track (matching E.options cb.comparison key) [] (plug c (node a l r)) = some (c, a, l, r) := by
  rw [lookup_eq_track []] at hfind
  obtain ⟨⟨c', a', l', r'⟩, htrack, ha⟩ := Option.map_eq_some_iff.1 hfind
  obtain rfl : a' = a := ha
  have hplug : plug c' (node a' l' r') = plug [] (plug c (node a' l r)) := plug_track htrack
  obtain ⟨rfl, -, rfl, rfl⟩ := hd.place_unique hplug.symm rfl
  exact htrack

/-- The value of what a search returns tells its record. -/
theorem tells_valueOf (hm : HoldsRecords n (⟨E, F, T⟩ : Image σ)) {u : Option Entry}
    (hu : ∀ e ∈ u, e ∈ T.inorder) : Tells n (.value (valueOf E.options u))
      (.record ((u.map (Entry.record n E.options)).map Entry.payload)) := by
  cases u with
  | none => exact .missing
  | some e => exact .record (isRecord_of_mem hm (hu e rfl))

/-- The nodes of a tree hold records after an operation, too. -/
theorem Performs.holdsRecords {m m' : Image σ} {op : Op} {res : Result} {q : Request}
    (h : Performs cb m op res m') (hm : HoldsRecords n m) (hask : Asks n cb m.env op q) :
    HoldsRecords n m' := by
  refine ⟨fun hx => ?_, fun b hb => ?_⟩
  · rw [h.extraSize]
    exact hm.fits (h.options_eq ▸ hx)
  · rw [h.options_eq]
    rcases h.mem_items hb with hb | ⟨v, rfl, -, rfl, -⟩
    · exact hm.stored b hb
    · cases hask with
      | add hv => exact (record_newcomer hm hv).1

/-- An operation makes of the records of a tree what `RecordTree.respond` makes of them. -/
theorem Performs.refines {m m' : Image σ} {op : Op} {res : Result} {q : Request}
    (h : Performs cb m op res m') (hd : m.Distinct) (hm : HoldsRecords n m)
    (hcomp : ByContents n cb.comparison) (hask : Asks n cb m.env op q) :
    Tells n res (RecordTree.respond cb.comparison (m.records n) q).1 ∧
      m'.records n = (RecordTree.respond cb.comparison (m.records n) q).2 := by
  cases h with
  | @added E F T v g k hplace ha hk =>
    cases hask with
    | add hv =>
      have hseek := place_record hcomp hm hv
      rw [hplace, Option.map_some] at hseek
      simp only [RecordTree.respond, Image.records, hseek]
      refine ⟨.code 0, ?_⟩
      have htree : (wash (attach E.stamp (E.newcomer cb v) g)).image false
          (Entry.record n E.options) = _ := wash_record _
      rw [attach_record, newcomer_record hm hv] at htree
      exact congrArg (RecordTree.mk (halts E.options) (E.epoch + 1)) htree
  | @rejected E F T v hplace =>
    cases hask with
    | add hv =>
      have hseek := place_record hcomp hm hv
      rw [hplace, Option.map_none] at hseek
      simp only [RecordTree.respond, Image.records, hseek]
      refine ⟨.code EEXIST, ?_⟩
      exact congrArg (RecordTree.mk (halts E.options) E.epoch) (wash_record T)
  | @removed E F key c a l r k hfind hk =>
    cases hask with
    | remove hkey =>
      have htrack : track (RecordTree.toward cb.comparison (key.record n)) []
          ((plug c (node a l r)).image false (Entry.record n E.options)) = _ :=
        track_image (toward_record hcomp hkey hm) (c := [])
      rw [track_of_lookup hd hfind, Option.map_some] at htrack
      simp only [RecordTree.respond, Image.records, htrack]
      refine ⟨.code 0, ?_⟩
      have htree : (wash (unstore E.stamp c a l r)).image false (Entry.record n E.options) = _ :=
        wash_record _
      rw [unstore_record] at htree
      exact congrArg (RecordTree.mk (halts E.options) (E.epoch + 1)) htree
  | @missing E F T key hfind =>
    cases hask with
    | remove hkey =>
      have htrack : track (RecordTree.toward cb.comparison (key.record n)) []
          (T.image false (Entry.record n E.options)) = _ :=
        track_image (toward_record hcomp hkey hm) (c := [])
      rw [lookup_eq_track [], Option.map_eq_none_iff] at hfind
      rw [hfind, Option.map_none] at htrack
      simp only [RecordTree.respond, Image.records, htrack]
      exact ⟨.code ENOENT, rfl⟩
  | removedNode => cases hask
  | found E F T key =>
    cases hask with
    | find hkey =>
      have hlookup : lookup (RecordTree.toward cb.comparison (key.record n))
          (T.image false (Entry.record n E.options)) = _ :=
        lookup_image (toward_record hcomp hkey hm)
      simp only [RecordTree.respond, Image.records, hlookup]
      exact ⟨tells_valueOf hm fun e he => (mem_of_lookup he).1, rfl⟩
  | reached E F T key =>
    cases hask with
    | findEqualOrGreater hkey =>
      have hceiling : ceiling (RecordTree.toward cb.comparison (key.record n))
          (T.image false (Entry.record n E.options)) none = _ :=
        ceiling_image (toward_record hcomp hkey hm) none
      simp only [RecordTree.respond, Image.records, hceiling]
      exact ⟨tells_valueOf hm fun e he => mem_of_ceiling he, rfl⟩
  | isEmpty => cases hask
  | enumerated => cases hask

end Refines

/-! ### Two trees with the same records -/

/-- The same operation on the same record. -/
inductive SameOp (n : ℕ) : Op → Op → Prop
  | add {v v' : VoidPtr} (hv : v.addr ≠ .null) (hv' : v'.addr ≠ .null) (h : SameRecord n v v') :
      SameOp n (.add v) (.add v')
  | remove {key key' : VoidPtr} (h : SameRecord n key key') :
      SameOp n (.remove key) (.remove key')
  | find {key key' : VoidPtr} (h : SameRecord n key key') : SameOp n (.find key) (.find key')
  | findEqualOrGreater {key key' : VoidPtr} (h : SameRecord n key key') :
      SameOp n (.findEqualOrGreater key) (.findEqualOrGreater key')

/-- The same code, or the same record, or no record. -/
inductive SameResult (n : ℕ) : Result → Result → Prop
  | code (k : ℤ) : SameResult n (.code k) (.code k)
  | missing : SameResult n (.value null) (.value null)
  | record {v v' : VoidPtr} (hv : v.addr ≠ .null) (hv' : v'.addr ≠ .null)
      (h : SameRecord n v v') : SameResult n (.value v) (.value v')

/-- The same comparison, of contents, and `retain` callbacks that keep to the records they are
given. -/
structure SameCallbacks (n : ℕ) (cb cb' : Callbacks) : Prop where
  comparison : cb'.comparison = cb.comparison
  contents : ByContents n cb.comparison
  retain : ∀ u u' v v', v.addr ≠ .null → v'.addr ≠ .null → SameRecord n v v' →
    (cb.retain u v).addr ≠ .null ∧ (cb'.retain u' v').addr ≠ .null ∧
      SameRecord n (cb.retain u v) (cb'.retain u' v')

theorem Tells.sameResult {n : ℕ} {r r' : Result} {p : Reply} (h : Tells n r p)
    (h' : Tells n r' p) : SameResult n r r' := by
  cases h with
  | code k => cases h'; exact .code k
  | missing => cases h'; exact .missing
  | @record v hv =>
    generalize hq : Reply.record (some (v.record n)) = q at h'
    cases h' with
    | code => cases hq
    | missing => cases hq
    | @record v' hv' =>
      have hrecord : v.record n = v'.record n := Option.some.inj (Reply.record.inj hq)
      exact .record hv.1 hv'.1 ⟨hv.2, hv'.2, congrArg VoidPtr.bytes hrecord⟩

/-- What a node shows of its record and its colour. -/
def recordAt (n : ℕ) (s : Base σ) (x : Ref) : Bool × List UInt8 :=
  (redAt s x, (valueAt s x).bytes.take n)

/-- The links of the trees have the same shape, and corresponding nodes have the same colour and
hold the same record of `n` bytes. -/
def Isomorphic {σ' : Type} (n : ℕ) (s : Base σ) (t : Base σ') : Prop :=
  ∃ u v, Linked s .nil s.root u ∧ Linked t .nil t.root v ∧
    u.map (recordAt n s) = v.map (recordAt n t) ∧
    (∀ x ∈ u.inorder, n ≤ (valueAt s x).bytes.length) ∧
    ∀ x ∈ v.inorder, n ≤ (valueAt t x).bytes.length

/-- The memory shows a tree of records. -/
def ShowsRecords (n : ℕ) (s : Base σ) (R : RecordTree) : Prop :=
  ∃ m : Image σ, Represents s m ∧ HoldsRecords n m ∧ m.records n = R

section Lockstep

variable {τ : Type} [MulleStorage τ] {n : ℕ} {s : Base σ} {t : Base τ} {R : RecordTree}

/-- What is seen of a node by way of its record. -/
theorem recordAt_eq {m : Image σ} {z : Sentinel}
    (h : Repr s m.env z (m.spare.map looseCell) m.tree) : (m.tree.map Entry.ref).map (recordAt n s) =
      (m.records n).tree.map fun e => (e.isRed, e.payload.bytes) := by
  rw [Image.records, image_false, ← comp_map, ← comp_map]
  refine Everywhere.map_congr fun e he => ?_
  have hred := h.redAt_eq he
  have hvalue := h.valueAt_eq he
  have hisRed : (e.record n m.env.options).isRed = e.isRed := Entry.isRed_seen _ e
  simp only [Function.comp_apply, recordAt, hred, hvalue, hisRed]
  rfl

theorem ShowsRecords.isomorphic (hs : ShowsRecords n s R) (ht : ShowsRecords n t R) :
    Isomorphic n s t := by
  obtain ⟨m, ⟨⟨z, h⟩, -⟩, hm, hR⟩ := hs
  obtain ⟨m', ⟨⟨z', h'⟩, -⟩, hm', hR'⟩ := ht
  refine ⟨_, _, h.linked, h'.linked, ?_, ?_, ?_⟩
  · rw [recordAt_eq h, recordAt_eq h', hR, hR']
  · intro x hx
    rw [inorder_map] at hx
    obtain ⟨e, he, rfl⟩ := List.mem_map.1 hx
    rw [h.valueAt_eq he]
    exact (isRecord_of_mem hm he).2
  · intro x hx
    rw [inorder_map] at hx
    obtain ⟨e, he, rfl⟩ := List.mem_map.1 hx
    rw [h'.valueAt_eq he]
    exact (isRecord_of_mem hm' he).2

theorem ShowsRecords.step {cb : Callbacks} {op : Op} {m : Image σ} (hr : Represents s m)
    (hm : HoldsRecords n m) (hcomp : ByContents n cb.comparison) {q : Request}
    (hask : Asks n cb m.env op q) (hp : op.Pre s) : Ensures (op.exec cb) s fun r s' =>
      Tells n r (RecordTree.respond cb.comparison (m.records n) q).1 ∧
        ShowsRecords n s' (RecordTree.respond cb.comparison (m.records n) q).2 := by
  refine (op_represents hr hp).mono fun r s' ⟨m', h, hr'⟩ => ?_
  obtain ⟨htells, hR⟩ := h.refines hr.1.distinct hm hcomp hask
  exact ⟨htells, m', hr', h.holdsRecords hm hask, hR⟩

omit [MulleStorage σ] [MulleStorage τ] in
/-- The same operation asks the same of both trees. -/
theorem SameOp.asks {cb cb' : Callbacks} (hcb : SameCallbacks n cb cb') {op op' : Op}
    (hop : SameOp n op op') (E : Env σ) (G : Env τ) :
    ∃ q, Asks n cb E op q ∧ Asks n cb' G op' q := by
  cases hop with
  | @add v v' hv hv' h =>
    obtain ⟨hk, hk', hsame⟩ := hcb.retain E.trace G.trace v v' hv hv' h
    have hrecord : (G.kept cb' v').record n = (E.kept cb v).record n := hsame.record_eq.symm
    have hadd : Asks n cb' G (.add v') (.add ((G.kept cb' v').record n)) := .add ⟨hk', hsame.right⟩
    rw [hrecord] at hadd
    exact ⟨_, .add ⟨hk, hsame.left⟩, hadd⟩
  | remove h =>
    refine ⟨_, .remove h.left, ?_⟩
    rw [h.record_eq]
    exact .remove h.right
  | find h =>
    refine ⟨_, .find h.left, ?_⟩
    rw [h.record_eq]
    exact .find h.right
  | findEqualOrGreater h =>
    refine ⟨_, .findEqualOrGreater h.left, ?_⟩
    rw [h.record_eq]
    exact .findEqualOrGreater h.right

/-- Two trees that show the same records do so after the same operation, too. -/
theorem SameOp.lockstep {cb cb' : Callbacks} (hcb : SameCallbacks n cb cb') {op op' : Op}
    (hop : SameOp n op op') (hst : ∃ R, ShowsRecords n s R ∧ ShowsRecords n t R) (hp : op.Pre s)
    (hp' : op'.Pre t) : Ensures (op.exec cb) s fun r s' => Ensures (op'.exec cb') t fun r' t' =>
      SameResult n r r' ∧ ∃ R, ShowsRecords n s' R ∧ ShowsRecords n t' R := by
  obtain ⟨_, ⟨m, hr, hm, rfl⟩, m', hr', hm', hR⟩ := hst
  obtain ⟨q, hask, hask'⟩ := hop.asks hcb m.env m'.env
  have hcomp : ByContents n cb'.comparison := hcb.comparison ▸ hcb.contents
  refine (ShowsRecords.step hr hm hcb.contents hask hp).mono fun r s' ⟨htells, hs'⟩ => ?_
  refine (ShowsRecords.step hr' hm' hcomp hask' hp').mono fun r' t' ⟨htells', ht'⟩ => ?_
  rw [hcb.comparison, hR] at htells' ht'
  exact ⟨htells.sameResult htells', _, hs', ht'⟩

theorem holdsRecords_init {config : Config} (hfits : Options.useExtra config.options = true →
    n ≤ areaSize (Base.initWithConfig config : Base σ)) :
    HoldsRecords n (.init config : Image σ) := ⟨hfits, nofun⟩

/-- Two trees that agree about duplicates, each in payload mode or in extra mode with room for
records of `n` bytes: the same operations on the same records give the same codes and the same
records, and leave isomorphic trees. -/
theorem records_of_runs (config config' : Config) (cb cb' : Callbacks)
    (hduplicates : Options.allowDuplicates config'.options =
      Options.allowDuplicates config.options)
    (hfits : Options.useExtra config.options = true →
      n ≤ areaSize (Base.initWithConfig config : Base σ))
    (hfits' : Options.useExtra config'.options = true →
      n ≤ areaSize (Base.initWithConfig config' : Base τ))
    (hcb : SameCallbacks n cb cb') {h k : List (Op × Result)}
    (hs : (operations σ cb).Run (Base.initWithConfig config) h s)
    (ht : (operations τ cb').Run (Base.initWithConfig config') k t)
    (hops : List.Forall₂ (fun p q => SameOp n p.1 q.1) h k) :
    List.Forall₂ (fun p q => SameResult n p.2 q.2) h k ∧ Isomorphic n s t := by
  have hinit : (.init config' : Image τ).records n = (.init config : Image σ).records n := by
    have hhalts : halts config'.options = halts config.options := by
      rw [halts, halts, hduplicates]
    exact congrArg (fun b => RecordTree.mk b 0 nil) hhalts
  have hstart : ∃ R, ShowsRecords n (Base.initWithConfig config : Base σ) R ∧
      ShowsRecords n (Base.initWithConfig config' : Base τ) R :=
    ⟨_, ⟨_, ⟨shows_init config, sound_init config⟩, holdsRecords_init hfits, rfl⟩,
      _, ⟨shows_init config', sound_init config'⟩, holdsRecords_init hfits', hinit⟩
  obtain ⟨hresults, R, hs', ht'⟩ := hs.lockstep (R := fun s t => ∃ R, ShowsRecords n s R ∧
    ShowsRecords n t R) (fun _ _ _ _ hst hop hp hp' => hop.lockstep hcb hst hp hp') ht hops hstart
  exact ⟨hresults, hs'.isomorphic ht'⟩

end Lockstep

theorem sameCallbacks_firstByte : SameCallbacks 1 firstByteCallbacks firstByteCallbacks := by
  have hhead : ∀ a b : VoidPtr, SameRecord 1 a b → a.bytes.headD 0 = b.bytes.headD 0 := by
    rintro ⟨_, a⟩ ⟨_, b⟩ ⟨ha, hb, h⟩
    cases a with
    | nil => simp at ha
    | cons x a =>
      cases b with
      | nil => simp at hb
      | cons y b => simpa using h
  refine ⟨rfl, fun a a' b b' ha hb => ?_, fun _ _ v v' hv hv' h => ⟨hv, hv', h⟩⟩
  simp only [firstByteCallbacks, hhead a a' ha, hhead b b' hb]

/-- Three records are added, one of them again, and then it is removed and another one is found, in
a tree in payload mode and in one in extra mode. -/
theorem records_of_runs_six : ∃ s t : Base SlotPool, InOrder s [.slot 0, .slot 2] ∧
    InOrder t [.slot 0, .slot 2] ∧
    SameResult 1 (.value (ofByte 3)) (.value ⟨.area 2, 3 :: List.replicate 7 0⟩) ∧
    Isomorphic 1 s t := by
  obtain ⟨s, hs, ⟨m, hm⟩, hnodes⟩ := exists_run_of_operations (σ := SlotPool) ⟨0, 0x0#32, 0⟩
    firstByteCallbacks (fiveOps (ofByte 1) (ofByte 2) (ofByte 3) ++ [.find (ofByte 3)])
    (fiveResults ++ [.value (ofByte 3)]) nodesOf [.slot 0, .slot 2] (by decide +kernel)
  obtain ⟨t, ht, ⟨m', hm'⟩, hnodes'⟩ := exists_run_of_operations (σ := SlotPool) ⟨0, 0x2#32, 0⟩
    firstByteCallbacks (fiveOps ⟨.user 7, [1]⟩ ⟨.user 8, [2]⟩ ⟨.user 9, [3]⟩ ++ [.find ⟨.user 9, [3]⟩])
    (fiveResults ++ [.value ⟨.area 2, 3 :: List.replicate 7 0⟩]) nodesOf [.slot 0, .slot 2]
    (by decide +kernel)
  have hroom : 1 ≤ areaSize (Base.initWithConfig ⟨0, 0x2#32, 0⟩ : Base SlotPool) := by
    rw [areaSize_init]
    decide
  have hpayload : Options.useExtra 0x0#32 = false := by decide
  have hrecord : ∀ (k : UInt8) (i : ℕ), SameRecord 1 (ofByte k) ⟨.user i, [k]⟩ := fun k i =>
    ⟨by simp [ofByte], by simp, by simp [ofByte]⟩
  have hadd : ∀ (k : UInt8) (i : ℕ), SameOp 1 (.add (ofByte k)) (.add ⟨.user i, [k]⟩) := fun k i =>
    .add (by simp [ofByte]) (by simp) (hrecord k i)
  obtain ⟨hresults, hiso⟩ := records_of_runs ⟨0, 0x0#32, 0⟩ ⟨0, 0x2#32, 0⟩ _ _ (by decide)
    (fun hx => absurd (hpayload.symm.trans hx) Bool.false_ne_true) (fun _ => hroom) sameCallbacks_firstByte
    hs ht (.cons (hadd 1 7) (.cons (hadd 2 8) (.cons (hadd 3 9) (.cons (hadd 2 8)
      (.cons (.remove (hrecord 2 8)) (.cons (.find (hrecord 3 9)) .nil))))))
  have hfound : SameResult 1 (.value (ofByte 3)) (.value ⟨.area 2, 3 :: List.replicate 7 0⟩) :=
    hresults.get (i := 5) (by decide) (by decide)
  exact ⟨s, t, hnodes ▸ hm.inOrder, hnodes' ▸ hm'.inOrder, hfound, hiso⟩

end MulleRbtree
