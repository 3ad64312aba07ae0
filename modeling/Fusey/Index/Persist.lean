import Mathlib.Data.Countable.Basic
import Mathlib.Logic.Equiv.List
import Mathlib.Tactic.DeriveCountable
import Fusey.GoLib.Fmt
import Fusey.Chunks.ChunkStore
import Fusey.Index.Index

/-!
Contract: the wire form of the index (`internal/index/persist.go`).

Owns:
- the conversion to and from the wire types, in which an extent keeps only the
  sequence number of its chunk;
- the CBOR library as a parameter, with the law its documentation states;
- the bytes an index is saved as, and when they decode to the same index.

Does not own where the bytes go.
-/

set_option autoImplicit false

namespace Fusey

/-- `cborInode`. -/
structure CborInode where
  ino : Ino
  fileType : UInt32
  mode : UInt32
  nlink : Nat
  uid : UInt32
  gid : UInt32
  size : Int
  atime : Int
  mtime : Int
  ctime : Int
  blksize : Int
  blocks : Int
  rdev : UInt32
deriving DecidableEq, Repr

/-- `cborExtent`. -/
structure CborExtent where
  chunkSeq : Nat
  chunkOffset : Int
  length : Int
  fileOffset : Int
deriving DecidableEq, Repr

/-- `cborDirEntry`. -/
structure CborDirEntry where
  parentIno : Ino
  name : Name
  childIno : Ino
deriving DecidableEq, Repr

/-- `cborSnapshot`. -/
structure CborSnapshot where
  inodes : GoMap Ino CborInode
  dirEntries : List CborDirEntry
  extentMap : GoMap Ino (List CborExtent)
  symlinkTargets : GoMap Ino Name
  xattrs : GoMap Ino (GoMap Name Name)
  nextIno : Ino
deriving DecidableEq

/-- `parseChunkSeq`. -/
def parseChunkSeq (id : Key) : Option Nat :=
  if "chunk-".toList <+: id then GoFmt.scanUint32 (id.drop 6) else none

/-- `chunkSeqToID`. -/
def chunkSeqToID (seq : Nat) : Key := "chunk-".toList ++ GoFmt.padded 8 seq

/-- One inode of `toWireSnapshot`. -/
def toWireInode (n : Inode) : CborInode :=
  { ino := n.ino, fileType := n.fileType.bits, mode := n.mode, nlink := n.nlink, uid := n.uid,
    gid := n.gid, size := n.size, atime := n.atime, mtime := n.mtime, ctime := n.ctime,
    blksize := n.blksize, blocks := n.blocks, rdev := n.rdev }

/-- One directory entry of `toWireSnapshot`. -/
def toWireDirEntry (de : DirEntry) : CborDirEntry :=
  { parentIno := de.parentIno, name := de.name, childIno := de.childIno }

/-- One extent of `toWireSnapshot`. -/
def toWireExtent (e : Extent) : Option CborExtent :=
  (parseChunkSeq e.chunkID).map fun seq => ⟨seq, e.chunkOffset, e.length, e.fileOffset⟩

/-- `toWireSnapshot`; `none` is the error of the first ID it cannot parse. -/
def toWireSnapshot (snap : Snapshot) : Option CborSnapshot :=
  if ∀ ino ∈ snap.extentMap.keys, ∀ e ∈ (snap.extentMap.get ino).getD [],
      (toWireExtent e).isSome then
    some
      { inodes := snap.inodes.map toWireInode
        dirEntries := snap.dirEntries.map toWireDirEntry
        extentMap := snap.extentMap.map fun exts => exts.filterMap toWireExtent
        symlinkTargets := snap.symlinkTargets
        xattrs := snap.xattrs
        nextIno := snap.nextIno }
  else none

/-- One inode of `fromWireSnapshot`. -/
def fromWireInode (wi : CborInode) : Inode :=
  { ino := wi.ino, fileType := ⟨wi.fileType⟩, mode := wi.mode, nlink := wi.nlink, uid := wi.uid,
    gid := wi.gid, size := wi.size, atime := wi.atime, mtime := wi.mtime, ctime := wi.ctime,
    blksize := wi.blksize, blocks := wi.blocks, rdev := wi.rdev }

/-- One directory entry of `fromWireSnapshot`. -/
def fromWireDirEntry (wde : CborDirEntry) : DirEntry :=
  { parentIno := wde.parentIno, name := wde.name, childIno := wde.childIno }

/-- One extent of `fromWireSnapshot`. -/
def fromWireExtent (e : CborExtent) : Extent :=
  ⟨chunkSeqToID e.chunkSeq, e.chunkOffset, e.length, e.fileOffset⟩

/-- `fromWireSnapshot`. -/
def fromWireSnapshot (ws : CborSnapshot) : Snapshot :=
  { inodes := ws.inodes.map fromWireInode
    dirEntries := ws.dirEntries.map fromWireDirEntry
    extentMap := ws.extentMap.map fun exts => exts.map fromWireExtent
    symlinkTargets := ws.symlinkTargets
    xattrs := ws.xattrs
    nextIno := ws.nextIno }

/-! ### CBOR -/

/-- `MaxArrayElements` and `MaxMapPairs` of a default decoder. -/
def maxElements : Nat := 131072

/-- What a default decoder accepts: text strings are valid UTF-8 and no array
or map is too long. -/
def CborSnapshot.Decodable (ws : CborSnapshot) : Prop :=
  (ws.inodes.keys.card ≤ maxElements ∧ ws.dirEntries.length ≤ maxElements ∧
    ws.extentMap.keys.card ≤ maxElements ∧
    (∀ ino ∈ ws.extentMap.keys, ∀ exts ∈ ws.extentMap.get ino, exts.length ≤ maxElements) ∧
    ws.symlinkTargets.keys.card ≤ maxElements ∧ ws.xattrs.keys.card ≤ maxElements ∧
    ∀ ino ∈ ws.xattrs.keys, ∀ attrs ∈ ws.xattrs.get ino, attrs.keys.card ≤ maxElements) ∧
  (∀ e ∈ ws.dirEntries, GoFmt.validUTF8 e.name) ∧
  (∀ ino ∈ ws.symlinkTargets.keys, ∀ target ∈ ws.symlinkTargets.get ino,
    GoFmt.validUTF8 target) ∧
  ∀ ino ∈ ws.xattrs.keys, ∀ attrs ∈ ws.xattrs.get ino, ∀ name ∈ attrs.keys,
    GoFmt.validUTF8 name ∧ ∀ value ∈ attrs.get name, GoFmt.validUTF8 value

instance (ws : CborSnapshot) : Decidable ws.Decodable := by
  unfold CborSnapshot.Decodable
  infer_instance

/-- The CBOR library at the snapshot type: encoding never fails, and a default
decoder returns what was encoded unless its limits forbid it. -/
structure CborCodec where
  marshal : CborSnapshot → Bytes
  unmarshal : Bytes → Option CborSnapshot
  unmarshal_marshal : ∀ ws, unmarshal (marshal ws) = if ws.Decodable then some ws else none

section Inhabited

instance {K V : Type} [Countable K] [Countable V] : Countable (GoMap K V) := by
  have injective : Function.Injective fun m : GoMap K V => Finmap.entries m := fun _ _ same =>
    Finmap.ext same
  exact injective.countable

instance countableUInt8 : Countable UInt8 :=
  Function.Injective.countable (f := UInt8.toNat) fun _ _ => UInt8.toNat_inj.mp

instance countableUInt32 : Countable UInt32 :=
  Function.Injective.countable (f := UInt32.toNat) fun _ _ => UInt32.toNat_inj.mp

deriving instance Countable for CborInode
deriving instance Countable for CborDirEntry
deriving instance Countable for CborExtent
deriving instance Countable for CborSnapshot

/-- A numbering of the snapshots that begins with the known ones. -/
noncomputable def CborCodec.number (known : List CborSnapshot) (ws : CborSnapshot) : Nat :=
  if ws ∈ known then known.idxOf ws
  else known.length + Classical.choose (exists_injective_nat CborSnapshot) ws

theorem CborCodec.number_injective (known : List CborSnapshot) :
    Function.Injective (CborCodec.number known) := by
  have injective := Classical.choose_spec (exists_injective_nat CborSnapshot)
  have below : ∀ ws ∈ known, known.idxOf ws < known.length := fun ws member =>
    List.idxOf_lt_length_of_mem member
  intro left right same
  unfold number at same
  split_ifs at same with inLeft inRight inRight
  · exact List.idxOf_inj inLeft |>.mp same
  · have := below left inLeft
    omega
  · have := below right inRight
    omega
  · exact injective (Nat.add_left_cancel same)

/-- Some library with that law: a snapshot is written as its number in unary.
The known ones are computed; the others rest on a choice. -/
noncomputable def CborCodec.unary (known : List CborSnapshot) : CborCodec where
  marshal ws := List.replicate (number known ws) 0
  unmarshal data :=
    match known[data.length]? with
    | some ws => if ws.Decodable then some ws else none
    | none =>
        open Classical in
        if coded : ∃ ws : CborSnapshot, ws.Decodable ∧ number known ws = data.length then
          some (Classical.choose coded)
        else none
  unmarshal_marshal := by
    intro ws
    rw [List.length_replicate]
    by_cases isKnown : ws ∈ known
    · have found : known[number known ws]? = some ws := by
        rw [number, if_pos isKnown]
        exact List.getElem?_idxOf isKnown
      rw [found]
    · have absent : known[number known ws]? = none := by
        rw [number, if_neg isKnown]
        exact List.getElem?_eq_none (Nat.le_add_right _ _)
      rw [absent]
      split_ifs with coded decodable decodable
      · exact congrArg some (number_injective known (Classical.choose_spec coded).2)
      · obtain ⟨other, accepted, same⟩ := coded
        exact absurd (number_injective known same ▸ accepted) decodable
      · exact absurd ⟨ws, decodable, rfl⟩ coded
      · rfl

end Inhabited

/-- The bytes `Save` and `Marshal` write for a snapshot. -/
def encodeSnapshot (codec : CborCodec) (snap : Snapshot) : Option Bytes :=
  (toWireSnapshot snap).map codec.marshal

/-- `Unmarshal`, and `Load` on the bytes of the file. -/
def decodeIndex (codec : CborCodec) (blockSize : Int) (data : Bytes) : Option Index :=
  (codec.unmarshal data).map fun ws => Index.fromSnapshot (fromWireSnapshot ws) blockSize

/-! ### The wire types -/

theorem fromWireInode_toWireInode (n : Inode) : fromWireInode (toWireInode n) = n := rfl

theorem toWireInode_fromWireInode (wi : CborInode) : toWireInode (fromWireInode wi) = wi := rfl

theorem parseChunkSeq_chunkID (seq : Nat) :
    parseChunkSeq (chunkID seq) = if seq < 4294967296 then some seq else none := by
  have start : "chunk-".toList <+: chunkID seq := List.prefix_append _ _
  have rest : (chunkID seq).drop 6 = GoFmt.padded 8 seq := rfl
  unfold parseChunkSeq
  rw [if_pos start, rest, GoFmt.scanUint32_padded]

/-- An extent of a minted chunk that has a wire form is restored from it. -/
theorem fromWireExtent_of_toWireExtent {e : Extent} {wire : CborExtent}
    (minted : ∃ seq, e.chunkID = chunkID seq) (converted : toWireExtent e = some wire) :
    fromWireExtent wire = e := by
  obtain ⟨seq, id⟩ := minted
  obtain ⟨parsed, parsing, rfl⟩ := Option.map_eq_some_iff.mp converted
  rw [id, parseChunkSeq_chunkID] at parsing
  split_ifs at parsing
  cases parsing
  cases e
  cases id
  rfl

/-- Every chunk an extent of the list names was minted by a chunk store. -/
def Minted (exts : List Extent) : Prop := ∀ e ∈ exts, ∃ seq, e.chunkID = chunkID seq

theorem map_fromWireExtent_filterMap {exts : List Extent} (minted : Minted exts)
    (all : ∀ e ∈ exts, (toWireExtent e).isSome) :
    (exts.filterMap toWireExtent).map fromWireExtent = exts := by
  induction exts with
  | nil => rfl
  | cons head tail inductionHypothesis =>
      obtain ⟨wire, converted⟩ := Option.isSome_iff_exists.mp (all head (by simp))
      rw [List.filterMap_cons_some converted, List.map_cons,
        fromWireExtent_of_toWireExtent (minted head (by simp)) converted,
        inductionHypothesis (fun e member => minted e (by simp [member]))
          fun e member => all e (by simp [member])]

/-- The wire form loses nothing of a snapshot whose chunks were minted. -/
theorem fromWireSnapshot_of_toWireSnapshot {snap : Snapshot} {ws : CborSnapshot}
    (minted : ∀ ino exts, snap.extentMap.get ino = some exts → Minted exts)
    (converted : toWireSnapshot snap = some ws) : fromWireSnapshot ws = snap := by
  unfold toWireSnapshot at converted
  split_ifs at converted with all
  cases converted
  have extents : (snap.extentMap.map fun exts => exts.filterMap toWireExtent).map
      (fun exts => exts.map fromWireExtent) = snap.extentMap := by
    refine GoMap.map_map_eq_self fun ino exts stored => ?_
    have known := all ino (GoMap.mem_keys.mpr ⟨exts, stored⟩)
    rw [stored] at known
    exact map_fromWireExtent_filterMap (minted ino exts stored) known
  have inodes : (snap.inodes.map toWireInode).map fromWireInode = snap.inodes :=
    GoMap.map_map_eq_self fun _ inode _ => fromWireInode_toWireInode inode
  have entries : (snap.dirEntries.map toWireDirEntry).map fromWireDirEntry = snap.dirEntries := by
    rw [List.map_map]
    exact List.map_id _
  simp only [fromWireSnapshot, extents, inodes, entries]

/-- A snapshot of minted chunks below `2^32` encodes. -/
theorem encodeSnapshot_isSome (codec : CborCodec) {snap : Snapshot}
    (parses : ∀ ino exts, snap.extentMap.get ino = some exts → ∀ e ∈ exts,
      ∃ seq < 4294967296, e.chunkID = chunkID seq) :
    ∃ ws, toWireSnapshot snap = some ws ∧
      encodeSnapshot codec snap = some (codec.marshal ws) := by
  have all : ∀ ino ∈ snap.extentMap.keys, ∀ e ∈ (snap.extentMap.get ino).getD [],
      (toWireExtent e).isSome := by
    intro ino known e member
    obtain ⟨exts, stored⟩ := GoMap.mem_keys.mp known
    rw [stored] at member
    obtain ⟨seq, small, id⟩ := parses ino exts stored e member
    simp only [toWireExtent, id, parseChunkSeq_chunkID, if_pos small, Option.map_some,
      Option.isSome_some]
  have converted : ∃ ws, toWireSnapshot snap = some ws := by
    unfold toWireSnapshot
    rw [if_pos all]
    exact ⟨_, rfl⟩
  obtain ⟨ws, converted⟩ := converted
  exact ⟨ws, converted, by rw [encodeSnapshot, converted, Option.map_some]⟩

/-- The wire form is a value of the Go types: sequence numbers are `uint32`s. -/
def CborSnapshot.Typed (ws : CborSnapshot) : Prop :=
  ∀ ino exts, ws.extentMap.get ino = some exts → ∀ e ∈ exts, e.chunkSeq < 4294967296

theorem toWireExtent_fromWireExtent {e : CborExtent} (typed : e.chunkSeq < 4294967296) :
    toWireExtent (fromWireExtent e) = some e := by
  have parsed : parseChunkSeq (chunkSeqToID e.chunkSeq) = some e.chunkSeq := by
    have := parseChunkSeq_chunkID e.chunkSeq
    rwa [if_pos typed] at this
  unfold toWireExtent fromWireExtent
  rw [parsed]
  rfl

theorem filterMap_toWireExtent_map {exts : List CborExtent}
    (typed : ∀ e ∈ exts, e.chunkSeq < 4294967296) :
    (exts.map fromWireExtent).filterMap toWireExtent = exts := by
  induction exts with
  | nil => rfl
  | cons head tail inductionHypothesis =>
      rw [List.map_cons,
        List.filterMap_cons_some (toWireExtent_fromWireExtent (typed head (by simp))),
        inductionHypothesis fun e member => typed e (by simp [member])]

/-- Every wire form is the one of the snapshot it stands for. -/
theorem toWireSnapshot_fromWireSnapshot {ws : CborSnapshot} (typed : ws.Typed) :
    toWireSnapshot (fromWireSnapshot ws) = some ws := by
  have all : ∀ ino ∈ (fromWireSnapshot ws).extentMap.keys,
      ∀ e ∈ ((fromWireSnapshot ws).extentMap.get ino).getD [], (toWireExtent e).isSome := by
    intro ino known e member
    obtain ⟨exts, stored⟩ := GoMap.mem_keys.mp known
    simp only [fromWireSnapshot, GoMap.get_map] at stored
    obtain ⟨wire, found, rfl⟩ := Option.map_eq_some_iff.mp stored
    simp only [fromWireSnapshot, GoMap.get_map, found, Option.map_some, Option.getD_some] at member
    obtain ⟨we, inWire, rfl⟩ := List.mem_map.mp member
    rw [toWireExtent_fromWireExtent (typed ino wire found we inWire)]
    rfl
  have extents : (ws.extentMap.map fun exts => exts.map fromWireExtent).map
      (fun exts => exts.filterMap toWireExtent) = ws.extentMap :=
    GoMap.map_map_eq_self fun ino exts stored => filterMap_toWireExtent_map (typed ino exts stored)
  have inodes : (ws.inodes.map fromWireInode).map toWireInode = ws.inodes :=
    GoMap.map_map_eq_self fun _ wi _ => toWireInode_fromWireInode wi
  have entries : (ws.dirEntries.map fromWireDirEntry).map toWireDirEntry = ws.dirEntries := by
    rw [List.map_map]
    exact List.map_id _
  unfold toWireSnapshot
  rw [if_pos all]
  simp only [fromWireSnapshot, extents, inodes, entries]

/-! ### The directory index -/

theorem Index.mem_dirEntries {idx : Index} {e : DirEntry} :
    e ∈ idx.dirEntries ↔ idx.entry e.parentIno e.name = some e.childIno := by
  unfold dirEntries entry
  rw [Multiset.mem_bind, Option.bind_eq_some_iff]
  constructor
  · rintro ⟨⟨parent, children⟩, inDirs, inChildren⟩
    obtain ⟨⟨name, child⟩, found, rfl⟩ := Multiset.mem_map.mp inChildren
    exact ⟨children, GoMap.mem_entries.mp inDirs, GoMap.mem_entries.mp found⟩
  · rintro ⟨children, stored, found⟩
    exact ⟨(e.parentIno, children), GoMap.mem_entries.mpr stored,
      Multiset.mem_map.mpr ⟨(e.name, e.childIno), GoMap.mem_entries.mpr found, rfl⟩⟩

/-- The directory maps are those of the directory inodes. -/
def Index.DirsMatch (idx : Index) : Prop :=
  ∀ ino, (∃ children, idx.dirIndex.get ino = some children) ↔
    ∃ inode, idx.inodes.get ino = some inode ∧ inode.fileType = .directory

/-- What the loop over a functional list of entries builds: the directories
that occur in it, each with its entries. -/
theorem Index.foldl_addSnapshotEntry {entries : List DirEntry}
    (functional : ∀ e ∈ entries, ∀ other ∈ entries, e.parentIno = other.parentIno →
      e.name = other.name → e = other) (parent : Ino) :
    ((entries.foldl addSnapshotEntry ∅).get parent = none ↔
        ∀ e ∈ entries, e.parentIno ≠ parent) ∧
      ∀ children, (entries.foldl addSnapshotEntry ∅).get parent = some children →
        ∀ name child, children.get name = some child ↔ ⟨parent, name, child⟩ ∈ entries := by
  induction entries using List.reverseRecOn with
  | nil => simp
  | append_singleton front last inductionHypothesis =>
      obtain ⟨absent, present⟩ := inductionHypothesis fun e member other inFront =>
        functional e (by simp [member]) other (by simp [inFront])
      rw [List.foldl_append, List.foldl_cons, List.foldl_nil, addSnapshotEntry]
      by_cases here : parent = last.parentIno
      · subst here
        rw [GoMap.get_set_self]
        refine ⟨by simp, ?_⟩
        rintro children stored name child
        cases stored
        have older : ∀ name child,
            (((front.foldl addSnapshotEntry ∅).get last.parentIno).getD ∅).get name =
              some child ↔ ⟨last.parentIno, name, child⟩ ∈ front := by
          intro name child
          cases found : (front.foldl addSnapshotEntry ∅).get last.parentIno with
          | none =>
              have none_there := absent.mp found
              simp only [Option.getD_none, GoMap.get_empty, reduceCtorEq, false_iff]
              exact fun member => none_there _ member rfl
          | some children => exact present children found name child
        rw [GoMap.get_set, List.mem_append, List.mem_singleton]
        split_ifs with same
        · subst same
          constructor
          · intro stored
            cases stored
            exact Or.inr rfl
          · intro member
            have isLast : (⟨last.parentIno, last.name, child⟩ : DirEntry) = last :=
              functional _ (by simpa using member) last (by simp) rfl rfl
            exact congrArg some (congrArg DirEntry.childIno isLast).symm
        · rw [older]
          refine ⟨Or.inl, ?_⟩
          rintro (inFront | isLast)
          · exact inFront
          · exact absurd (congrArg DirEntry.name isLast) same
      · rw [GoMap.get_set_ne _ _ here]
        constructor
        · rw [absent]
          constructor
          · intro none_there e member
            rcases List.mem_append.mp member with inFront | isLast
            · exact none_there e inFront
            · rw [List.mem_singleton.mp isLast]
              exact fun same => here same.symm
          · exact fun none_there e member => none_there e (by simp [member])
        · intro children stored name child
          rw [present children stored name child, List.mem_append, List.mem_singleton]
          refine ⟨Or.inl, ?_⟩
          rintro (inFront | isLast)
          · exact inFront
          · exact absurd (congrArg DirEntry.parentIno isLast) here

theorem Index.get_emptyDirs {idx : Index} (dirs : idx.DirsMatch) (ino : Ino) :
    (emptyDirs idx.inodes).get ino = (idx.dirIndex.get ino).map fun _ => ∅ := by
  unfold emptyDirs
  rw [GoMap.get_build]
  cases stored : idx.dirIndex.get ino with
  | some children =>
      obtain ⟨inode, known, isDirectory⟩ := (dirs ino).mp ⟨children, stored⟩
      rw [if_pos (GoMap.mem_keys.mpr ⟨inode, known⟩), known]
      simp [isDirectory]
  | none =>
      split_ifs with known
      · obtain ⟨inode, found⟩ := GoMap.mem_keys.mp known
        rw [found, Option.bind_some, if_neg]
        · rfl
        · intro isDirectory
          obtain ⟨children, present⟩ := (dirs ino).mpr ⟨inode, found, isDirectory⟩
          rw [stored] at present
          cases present
      · rfl

theorem Index.foldl_addSnapshotEntry_dirIndex {idx : Index} (dirs : idx.DirsMatch)
    {order : List DirEntry} (lists : idx.Lists order) :
    (order.foldl addSnapshotEntry ∅).orElse (emptyDirs idx.inodes) = idx.dirIndex := by
  have listed : ∀ e, e ∈ order ↔ idx.entry e.parentIno e.name = some e.childIno := by
    intro e
    rw [← mem_dirEntries, ← lists, Multiset.mem_coe]
  have functional : ∀ e ∈ order, ∀ other ∈ order, e.parentIno = other.parentIno →
      e.name = other.name → e = other := by
    intro e member other inOrder sameParent sameName
    have first := (listed e).mp member
    have second := (listed other).mp inOrder
    rw [← sameParent, ← sameName, first] at second
    cases e
    cases other
    simp_all
  apply GoMap.ext
  intro ino
  obtain ⟨absent, present⟩ := foldl_addSnapshotEntry functional ino
  rw [GoMap.get_orElse]
  rw [get_emptyDirs dirs]
  cases built : (order.foldl addSnapshotEntry ∅).get ino with
  | none =>
      rw [Option.none_or]
      cases stored : idx.dirIndex.get ino with
      | none => rfl
      | some children =>
          refine congrArg some (GoMap.ext fun name => ?_)
          cases found : children.get name with
          | none => rfl
          | some child =>
              have member : (⟨ino, name, child⟩ : DirEntry) ∈ order := by
                rw [listed]
                simp [entry, stored, found]
              exact absurd rfl (absent.mp built _ member)
  | some rebuilt =>
      have contents := present rebuilt built
      have occurs : ∃ e ∈ order, e.parentIno = ino := by
        by_contra never
        push Not at never
        rw [absent.mpr never] at built
        cases built
      obtain ⟨e, member, rfl⟩ := occurs
      obtain ⟨children, stored, -⟩ := Option.bind_eq_some_iff.mp ((listed e).mp member)
      rw [Option.some_or, stored]
      refine congrArg some (GoMap.ext fun name => ?_)
      apply Option.ext
      intro child
      rw [contents, listed]
      simp [entry, stored]

/-! ### Round trip -/

/-- The index with both flags down, as `FromSnapshot` returns it. -/
def Index.cleaned (idx : Index) : Index := { idx with dirty := false, remoteDirty := false }

theorem Index.fromSnapshot_snapshot {idx : Index} (dirs : idx.DirsMatch) {order : List DirEntry}
    (lists : idx.Lists order) (blockSize : Int) :
    fromSnapshot (idx.snapshot order) blockSize = { idx.cleaned with blockSize := blockSize } := by
  simp only [fromSnapshot, snapshot, cleaned, foldl_addSnapshotEntry_dirIndex dirs lists]

/-- The snapshot decodes within the limits of the decoder, if it encodes. -/
def Snapshot.Decodable (snap : Snapshot) : Prop :=
  ∀ ws ∈ toWireSnapshot snap, ws.Decodable

instance (snap : Snapshot) : Decidable snap.Decodable := by
  unfold Snapshot.Decodable
  infer_instance

/-- Whatever decodes from an encoded index has its extents. -/
theorem extents_of_decodeIndex {codec : CborCodec} {idx idx' : Index} {order : List DirEntry}
    {data : Bytes} (minted : ∀ ino exts, idx.extents.get ino = some exts → Minted exts)
    (encoded : encodeSnapshot codec (idx.snapshot order) = some data) {blockSize : Int}
    (decoded : decodeIndex codec blockSize data = some idx') : idx'.extents = idx.extents := by
  obtain ⟨ws, converted, rfl⟩ := Option.map_eq_some_iff.mp encoded
  obtain ⟨ws', unmarshalled, rfl⟩ := Option.map_eq_some_iff.mp decoded
  rw [codec.unmarshal_marshal] at unmarshalled
  split_ifs at unmarshalled
  cases unmarshalled
  rw [fromWireSnapshot_of_toWireSnapshot minted converted]
  rfl

/-- Whatever decodes from an encoded index is that index with its flags down,
for the block size that was asked for. -/
theorem eq_of_decodeIndex {codec : CborCodec} {idx idx' : Index} {order : List DirEntry}
    {data : Bytes} (dirs : idx.DirsMatch)
    (minted : ∀ ino exts, idx.extents.get ino = some exts → Minted exts)
    (lists : idx.Lists order) (encoded : encodeSnapshot codec (idx.snapshot order) = some data)
    {blockSize : Int} (decoded : decodeIndex codec blockSize data = some idx') :
    idx' = { idx.cleaned with blockSize := blockSize } := by
  obtain ⟨ws, converted, rfl⟩ := Option.map_eq_some_iff.mp encoded
  obtain ⟨ws', unmarshalled, rfl⟩ := Option.map_eq_some_iff.mp decoded
  rw [codec.unmarshal_marshal] at unmarshalled
  split_ifs at unmarshalled
  cases unmarshalled
  rw [fromWireSnapshot_of_toWireSnapshot minted converted, Index.fromSnapshot_snapshot dirs lists]

/-- What a successful save writes decodes to the index it was taken from. -/
theorem decodeIndex_of_encodeSnapshot {codec : CborCodec} {idx : Index} {order : List DirEntry}
    {data : Bytes} (dirs : idx.DirsMatch)
    (minted : ∀ ino exts, idx.extents.get ino = some exts → Minted exts)
    (lists : idx.Lists order) (decodable : (idx.snapshot order).Decodable)
    (encoded : encodeSnapshot codec (idx.snapshot order) = some data) :
    decodeIndex codec idx.blockSize data = some idx.cleaned := by
  obtain ⟨ws, converted, rfl⟩ := Option.map_eq_some_iff.mp encoded
  unfold decodeIndex
  rw [codec.unmarshal_marshal, if_pos (decodable ws converted), Option.map_some,
    fromWireSnapshot_of_toWireSnapshot minted converted, Index.fromSnapshot_snapshot dirs lists]
  rfl

end Fusey
