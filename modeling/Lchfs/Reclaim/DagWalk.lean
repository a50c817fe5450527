import Lchfs.Library.Fold
import Lchfs.Devices.VerifiedReads

/-!
# The mark walk

`GcEngine::mark` walks the objects below every live root and marks the location of each. The cache changes
while it runs, so a lookup takes the moment it is made at, which is the number of marks made before it. A record
is verified against the hash in its own header, and read on the primary whichever device the location is for.

What is reachable is said over the objects that the hashes stand for, `Pool.objects`, and not over what the
walk reads. A directory names inodes by their number, which the inode map of the root resolves.
-/

set_option linter.unusedSectionVars false

namespace Lchfs.Reclaim.DagWalk

open Lchfs.Devices.Reads (ExtentLocation Place)
open Lchfs.Library
open List

inductive StreamKind
  | data
  | metadata

inductive ExtentKind
  | rawChunk
  | inodeObject
  | directoryObject
  | indirectHashList
  | snapshotTable
  | rootObject
  | deltaLogEntry
  | sealed
  deriving DecidableEq

structure RootObject (Hash : Type) where
  inomapHash : Hash
  snapshotTableHash : Hash

structure InoMapEntry (Hash : Type) where
  ino : Nat
  currentObjectHash : Hash

inductive ContentRef (Hash : Type)
  | inline
  | chunkList (hash : Hash)
  | dirEntries (hash : Hash)
  | symlinkTarget

structure ExtentRecordHeader (Hash : Type) where
  contentHash : Hash
  kind : ExtentKind

inductive WalkError (Hash : Type)
  | notFound (hash : Hash)
  | unreadable (loc : ExtentLocation)
  | format
  | unexpectedRoot (kind : ExtentKind)

/-- The pool a walk looks at: the location cache and the devices at each moment, the address of an
object's bytes, and what the bytes decode to. -/
structure Pool (Hash Bytes : Type) where
  locations : Nat → Hash → Option (ExtentLocation × Place)
  primary : Nat → StreamKind → ExtentLocation → Option (ExtentRecordHeader Hash × Bytes)
  stripe : Nat → ExtentLocation → Option (ExtentRecordHeader Hash × Bytes)
  address : Bytes → Hash
  rootObject : Bytes → Option (RootObject Hash)
  inoMap : Bytes → Option (List (InoMapEntry Hash))
  inodeObject : Bytes → Option (ContentRef Hash)
  directoryObject : Bytes → Option (List Nat)
  indirectHashList : Bytes → Option (List Hash)
  objects : Hash → Option (ExtentKind × Bytes)

structure LiveSet (Hash : Type) where
  hashes : List Hash
  bySegment : Nat → Nat → Bool

variable {Hash Bytes : Type}

namespace LiveSet

def empty : LiveSet Hash := ⟨[], fun _ _ ↦ false⟩

/-- The end of the range is a sum of 32 bits. -/
def mark (live : LiveSet Hash) (hash : Hash) (loc : ExtentLocation) : LiveSet Hash where
  hashes := hash :: live.hashes
  bySegment segment byte := live.bySegment segment byte ||
    decide (segment = loc.segmentId ∧ loc.offset ≤ byte ∧ byte < (loc.offset + loc.len) % 2 ^ 32)

end LiveSet

/-- The marks of a walk, the last one first. -/
abbrev Marks (Hash : Type) := List (Hash × ExtentLocation)

variable [DecidableEq Hash] (pool : Pool Hash Bytes) {loc : ExtentLocation}

/-- The hash of the header is the address of the bytes. -/
def verified (record : Option (ExtentRecordHeader Hash × Bytes)) : Option (ExtentKind × Bytes) :=
  record.bind fun (header, bytes) ↦ if pool.address bytes = header.contentHash then some (header.kind, bytes) else none

def readRecordWith (now : Nat) (stream : StreamKind) (loc : ExtentLocation) : Place → Option (ExtentKind × Bytes)
  | .striped => verified pool (pool.stripe now loc)
  | .vdev _ => verified pool (pool.primary now stream loc)

def decoded {α : Type} : Option α → Except (WalkError Hash) α
  | none => .error .format
  | some object => .ok object

/-- `get_tagged`, and the mark that follows it. -/
def resolve (hash : Hash) (marks : Marks Hash) : Except (WalkError Hash) (ExtentLocation × Place) :=
  match pool.locations marks.length hash with
  | none => .error (.notFound hash)
  | some tagged => .ok tagged

def resolveAndRead (hash : Hash) (stream : StreamKind) (marks : Marks Hash) :
    Except (WalkError Hash) ((ExtentKind × Bytes) × Marks Hash) := do
  let (loc, place) ← resolve pool hash marks
  match readRecordWith pool marks.length stream loc place with
  | none => .error (.unreadable loc)
  | some record => .ok (record, (hash, loc) :: marks)

def markChunk (marks : Marks Hash) (hash : Hash) : Except (WalkError Hash) (Marks Hash) := do
  let (loc, _) ← resolve pool hash marks
  .ok ((hash, loc) :: marks)

def walkInode (marks : Marks Hash) (hash : Hash) : Except (WalkError Hash) (Marks Hash) := do
  let ((_, bytes), marks) ← resolveAndRead pool hash .metadata marks
  match ← decoded (pool.inodeObject bytes) with
  | .dirEntries dirHash =>
    let (_, marks) ← resolveAndRead pool dirHash .metadata marks
    .ok marks
  | .chunkList ihlHash =>
    let ((_, bytes), marks) ← resolveAndRead pool ihlHash .metadata marks
    let chunks ← decoded (pool.indirectHashList bytes)
    chunks.foldlM (markChunk pool) marks
  | .inline => .ok marks
  | .symlinkTarget => .ok marks

def walkInomap (marks : Marks Hash) (hash : Hash) : Except (WalkError Hash) (Marks Hash) := do
  let ((_, bytes), marks) ← resolveAndRead pool hash .metadata marks
  let entries ← decoded (pool.inoMap bytes)
  entries.foldlM (fun marks entry ↦ walkInode pool marks entry.currentObjectHash) marks

def walkReachable (marks : Marks Hash) (hash : Hash) : Except (WalkError Hash) (Marks Hash) := do
  let ((kind, bytes), marks) ← resolveAndRead pool hash .metadata marks
  match kind with
  | .rootObject =>
    let root ← decoded (pool.rootObject bytes)
    let marks ← walkInomap pool marks root.inomapHash
    let (_, marks) ← resolveAndRead pool root.snapshotTableHash .metadata marks
    .ok marks
  | .snapshotTable => .ok marks
  | other => .error (.unexpectedRoot other)

/-- `pinned` is what the pins are, and where, when they are looked up. A pin without a location is skipped. -/
def mark (roots : List Hash) (pinned : List (Hash × Option ExtentLocation)) : LiveSet Hash :=
  match roots.foldlM (walkReachable pool) [] with
  | .error _ => .empty
  | .ok marks =>
    pinned.foldl (fun live pin ↦ pin.2.elim live (live.mark pin.1))
      (marks.foldr (fun m live ↦ live.mark m.1 m.2) .empty)

/-! ## What is reachable -/

inductive Role
  | root
  | inoMap
  | snapshotTable
  | inode
  | directory
  | chunkList
  | chunk

/-- The hashes an object holds, and what they are hashes of. -/
def children : Role → ExtentKind × Bytes → List (Role × Hash)
  | .root, (.rootObject, bytes) =>
    (pool.rootObject bytes).elim [] fun root ↦ [(.inoMap, root.inomapHash), (.snapshotTable, root.snapshotTableHash)]
  | .inoMap, (_, bytes) => (pool.inoMap bytes).elim [] (·.map fun entry ↦ (.inode, entry.currentObjectHash))
  | .inode, (_, bytes) =>
    match pool.inodeObject bytes with
    | some (.dirEntries dir) => [(.directory, dir)]
    | some (.chunkList list) => [(.chunkList, list)]
    | _ => []
  | .chunkList, (_, bytes) => (pool.indirectHashList bytes).elim [] (·.map (.chunk, ·))
  | _, _ => []

/-- One object holds the hash of another. -/
def Edge (p q : Role × Hash) : Prop :=
  ∃ object, pool.objects p.2 = some object ∧ q ∈ children pool p.1 object

/-- The objects below a root, over the hashes they hold and the names of its directories. -/
inductive Reaches (root : Hash) : Role × Hash → Prop
  | root : Reaches root (.root, root)
  | edge {p q} : Reaches root p → Edge pool p q → Reaches root q
  | named {dir kind bytes inos hash kind' bytes' entries entry} :
    Reaches root (.directory, dir) → pool.objects dir = some (kind, bytes) → pool.directoryObject bytes = some inos →
    Reaches root (.inoMap, hash) → pool.objects hash = some (kind', bytes') → pool.inoMap bytes' = some entries →
    entry ∈ entries → entry.ino ∈ inos → Reaches root (.inode, entry.currentObjectHash)

/-- What the cache gives for a hash is the place of its object, and ends below 4 GiB. -/
structure Resolves : Prop where
  object : ∀ now hash loc place stream record, pool.locations now hash = some (loc, place) →
    readRecordWith pool now stream loc place = some record → pool.objects hash = some record
  ends : ∀ now hash loc place, pool.locations now hash = some (loc, place) → loc.offset + loc.len < 2 ^ 32

/-- One of the marks is for this hash, at the location that the cache had for it when it was made. -/
def VisitedAt (marks : Marks Hash) (hash : Hash) (loc : ExtentLocation) : Prop :=
  ∃ older place, (hash, loc) :: older <:+ marks ∧ pool.locations older.length hash = some (loc, place)

def Visited (marks : Marks Hash) (hash : Hash) : Prop :=
  ∃ loc, VisitedAt pool marks hash loc

/-- The walk has visited an object and all below it. -/
def Below (marks : Marks Hash) (p : Role × Hash) : Prop :=
  ∀ q, Relation.ReflTransGen (Edge pool) p q → Visited pool marks q.2

section Walk

variable {pool} {marks marks' : Marks Hash} {hash : Hash} {p : Role × Hash} {α : Type}

theorem Visited.mono (h : Visited pool marks hash) (hle : marks <:+ marks') : Visited pool marks' hash := by
  obtain ⟨loc, older, place, hsuffix, hloc⟩ := h
  exact ⟨loc, older, place, hsuffix.trans hle, hloc⟩

theorem Below.mono (h : Below pool marks p) (hle : marks <:+ marks') : Below pool marks' p :=
  fun q hq ↦ (h q hq).mono hle

theorem Below.of_children {object : ExtentKind × Bytes} (hvisited : Visited pool marks p.2)
    (hobject : pool.objects p.2 = some object) (h : ∀ q ∈ children pool p.1 object, Below pool marks q) :
    Below pool marks p := by
  intro q hq
  rcases hq.cases_head with rfl | ⟨r, ⟨_, hobject', hr⟩, hrest⟩
  · exact hvisited
  · cases hobject.symm.trans hobject'
    exact h r hr q hrest

/-- Chunks, directories and snapshot tables hold no hashes. -/
theorem Visited.leaf {role : Role} (h : Visited pool marks hash)
    (hleaf : ∀ object, children pool role object = [] := by exact fun _ ↦ rfl) : Below pool marks (role, hash) := by
  intro q hq
  rcases hq.cases_head with rfl | ⟨r, ⟨_, _, hr⟩, _⟩
  · exact h
  · simp [hleaf] at hr

theorem resolve_ok {place : Place} (h : resolve pool hash marks = .ok (loc, place)) :
    pool.locations marks.length hash = some (loc, place) ∧ Visited pool ((hash, loc) :: marks) hash := by
  unfold resolve at h
  split at h
  · cases h
  next hloc =>
    cases h
    exact ⟨hloc, loc, marks, place, suffix_refl _, hloc⟩

theorem resolveAndRead_ok (hres : Resolves pool) {stream : StreamKind} {record : ExtentKind × Bytes}
    (h : resolveAndRead pool hash stream marks = .ok (record, marks')) :
    marks <:+ marks' ∧ Visited pool marks' hash ∧ pool.objects hash = some record := by
  obtain ⟨⟨loc, place⟩, hresolve, h⟩ := except_bind_eq_ok.1 h
  obtain ⟨hloc, hvisited⟩ := resolve_ok hresolve
  dsimp only at h
  split at h
  · cases h
  next hread =>
    cases h
    exact ⟨suffix_cons _ _, hvisited, hres.object _ hash loc place stream _ hloc hread⟩

theorem markChunk_ok (h : markChunk pool marks hash = .ok marks') :
    marks <:+ marks' ∧ Below pool marks' (.chunk, hash) := by
  obtain ⟨⟨_, _⟩, hresolve, h⟩ := except_bind_eq_ok.1 h
  cases h
  exact ⟨suffix_cons _ _, (resolve_ok hresolve).2.leaf⟩

theorem decoded_ok {object : Option α} {a : α}
    (h : decoded object = (.ok a : Except (WalkError Hash) α)) : object = some a := by
  cases object <;> cases h
  rfl

/-- A loop whose rounds walk their elements walks them all. -/
theorem foldlM_below {f : Marks Hash → α → Except (WalkError Hash) (Marks Hash)}
    {g : α → Role × Hash}
    (hstep : ∀ marks a marks', f marks a = .ok marks' → marks <:+ marks' ∧ Below pool marks' (g a))
    {l : List α} (h : l.foldlM f marks = .ok marks') :
    marks <:+ marks' ∧ ∀ a ∈ l, Below pool marks' (g a) := by
  induction l generalizing marks with
  | nil =>
    cases h
    simp
  | cons a l ih =>
    rw [foldlM_cons, except_bind_eq_ok] at h
    obtain ⟨next, hnext, h⟩ := h
    obtain ⟨hle, ha⟩ := hstep marks a next hnext
    obtain ⟨hle', hl⟩ := ih h
    exact ⟨hle.trans hle', forall_mem_cons.2 ⟨ha.mono hle', hl⟩⟩

theorem walkInode_ok (hres : Resolves pool) (h : walkInode pool marks hash = .ok marks') :
    marks <:+ marks' ∧ Below pool marks' (.inode, hash) := by
  obtain ⟨⟨⟨_, _⟩, _⟩, hread, h⟩ := except_bind_eq_ok.1 h
  obtain ⟨hle₁, hvisited, hobject⟩ := resolveAndRead_ok hres hread
  obtain ⟨content, hcontent, h⟩ := except_bind_eq_ok.1 h
  have hcontent := decoded_ok hcontent
  cases content with
  | dirEntries =>
    obtain ⟨⟨_, _⟩, hread, h⟩ := except_bind_eq_ok.1 h
    cases h
    obtain ⟨hle, hdir, -⟩ := resolveAndRead_ok hres hread
    refine ⟨hle₁.trans hle, .of_children (hvisited.mono hle) hobject ?_⟩
    simpa [children, hcontent] using hdir.leaf
  | chunkList list =>
    obtain ⟨⟨⟨_, _⟩, _⟩, hread, h⟩ := except_bind_eq_ok.1 h
    obtain ⟨hle₂, hlist, hobject'⟩ := resolveAndRead_ok hres hread
    obtain ⟨_, hchunks, h⟩ := except_bind_eq_ok.1 h
    obtain ⟨hle, hmarked⟩ := foldlM_below (g := (.chunk, ·)) (fun _ _ _ hstep ↦ markChunk_ok hstep) h
    have hbelow : Below pool marks' (.chunkList, list) :=
      .of_children (hlist.mono hle) hobject' (by simpa [children, decoded_ok hchunks] using hmarked)
    refine ⟨hle₁.trans (hle₂.trans hle), .of_children (hvisited.mono (hle₂.trans hle)) hobject ?_⟩
    simpa [children, hcontent] using hbelow
  | inline | symlinkTarget =>
    cases h
    exact ⟨hle₁, .of_children hvisited hobject (by simp [children, hcontent])⟩

theorem walkInomap_ok (hres : Resolves pool) (h : walkInomap pool marks hash = .ok marks') :
    marks <:+ marks' ∧ Below pool marks' (.inoMap, hash) := by
  obtain ⟨⟨⟨_, _⟩, _⟩, hread, h⟩ := except_bind_eq_ok.1 h
  obtain ⟨hle₁, hvisited, hobject⟩ := resolveAndRead_ok hres hread
  obtain ⟨_, hentries, h⟩ := except_bind_eq_ok.1 h
  obtain ⟨hle, hinodes⟩ := foldlM_below (g := fun entry : InoMapEntry Hash ↦ (.inode, entry.currentObjectHash))
    (fun _ _ _ hstep ↦ walkInode_ok hres hstep) h
  refine ⟨hle₁.trans hle, .of_children (hvisited.mono hle) hobject ?_⟩
  simpa [children, decoded_ok hentries] using hinodes

theorem walkReachable_ok (hres : Resolves pool) (h : walkReachable pool marks hash = .ok marks') :
    marks <:+ marks' ∧ Below pool marks' (.root, hash) := by
  obtain ⟨⟨⟨_, _⟩, _⟩, hread, h⟩ := except_bind_eq_ok.1 h
  obtain ⟨hle₁, hvisited, hobject⟩ := resolveAndRead_ok hres hread
  dsimp only at h
  split at h
  · obtain ⟨_, hdecoded, h⟩ := except_bind_eq_ok.1 h
    obtain ⟨_, hinomap, h⟩ := except_bind_eq_ok.1 h
    obtain ⟨⟨_, _⟩, hread, h⟩ := except_bind_eq_ok.1 h
    cases h
    obtain ⟨hle₂, hbelow⟩ := walkInomap_ok hres hinomap
    obtain ⟨hle₃, htable, -⟩ := resolveAndRead_ok hres hread
    have hle := hle₂.trans hle₃
    refine ⟨hle₁.trans hle, .of_children (hvisited.mono hle) hobject ?_⟩
    simpa [children, decoded_ok hdecoded] using And.intro (hbelow.mono hle₃) htable.leaf
  · cases h
    exact ⟨hle₁, .of_children hvisited hobject (by simp [children])⟩
  · cases h

/-- The names of directories lead nowhere else. -/
theorem Below.of_reaches {root : Hash} (h : Below pool marks (.root, root)) (hp : Reaches pool root p) :
    Below pool marks p := by
  induction hp with
  | root => exact h
  | edge _ hedge ih => exact fun q hq ↦ ih q (.head hedge hq)
  | named _ _ _ _ hobject hentries hentry _ _ ih =>
    exact fun q hq ↦ ih q (.head ⟨_, hobject, by simpa [children, hentries] using ⟨_, hentry, rfl⟩⟩ hq)

end Walk

/-! ## The live set -/

/-- The hash is in the set, and so are the bytes of the location. -/
def LiveSet.Has (live : LiveSet Hash) (hash : Hash) (loc : ExtentLocation) : Prop :=
  hash ∈ live.hashes ∧
    ∀ byte, loc.offset ≤ byte → byte < loc.offset + loc.len → live.bySegment loc.segmentId byte = true

theorem LiveSet.Has.mark {live : LiveSet Hash} {hash : Hash} (h : live.Has hash loc) (hash' : Hash)
    (loc' : ExtentLocation) : (live.mark hash' loc').Has hash loc :=
  ⟨mem_cons_of_mem _ h.1, fun byte hlo hhi ↦ by simp [LiveSet.mark, h.2 byte hlo hhi]⟩

theorem has_of_mem {marks : Marks Hash} {m : Hash × ExtentLocation} (hmem : m ∈ marks)
    (hend : m.2.offset + m.2.len < 2 ^ 32) :
    (marks.foldr (fun m live ↦ live.mark m.1 m.2) LiveSet.empty).Has m.1 m.2 := by
  induction marks with
  | nil => simp at hmem
  | cons _ _ ih =>
    rcases mem_cons.1 hmem with rfl | hmem
    · refine ⟨mem_cons_self, fun byte hlo hhi ↦ ?_⟩
      have hhi : byte < (m.2.offset + m.2.len) % 2 ^ 32 := by rwa [Nat.mod_eq_of_lt hend]
      exact Bool.or_eq_true_iff.2 (.inr (decide_eq_true ⟨rfl, hlo, hhi⟩))
    · exact (ih hmem).mark _ _

/-- The root 1 with the inode map 2, of one inode 4, and the snapshot table 3. The hash of the inode map
resolves to the location of this record. -/
def onePool (inomap : Nat) : Pool Nat Nat where
  locations _ hash := if hash ∈ [1, 2, 3, 4] then some (⟨0, 100 * hash, 100⟩, .vdev 0) else none
  primary _ _ loc := if loc.offset = 200 then some (⟨inomap, .inodeObject⟩, inomap)
    else some (⟨loc.offset / 100, if loc.offset = 100 then .rootObject else .inodeObject⟩, loc.offset / 100)
  stripe _ _ := none
  address := id
  rootObject bytes := if bytes = 1 then some ⟨2, 3⟩ else none
  inoMap bytes := if bytes = 2 then some [⟨1, 4⟩] else some []
  inodeObject _ := some .inline
  directoryObject _ := none
  indirectHashList _ := none
  objects hash := some (if hash = 1 then .rootObject else .inodeObject, hash)

theorem onePool_reaches (inomap : Nat) : Reaches (onePool inomap) 1 (.inode, 4) :=
  .edge (.edge .root ⟨_, rfl, .head _⟩) ⟨_, rfl, .head _⟩

end Lchfs.Reclaim.DagWalk
