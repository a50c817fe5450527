import Lchfs.Library.Forest
import Lchfs.Store.Calls
import Lchfs.Store.Links

/-!
# The directory tree

The invariants of the namespace over every sequence of calls: entries sorted by name,
entries and link counts that agree, one entry and one parent record for every directory
but the root, and parents that lead to the root. A rename gives a directory a new parent;
the source's walk from that parent to the root, which the number of inodes bounds, decides
whether the way avoids the directory.
-/

namespace Lchfs.Store

open Lchfs.Format Lchfs.Library
open List Option
open Function Namespace

namespace Namespace

/-- The parent a walk to the root goes to next. -/
def parentOf (parents : Ino → Option Ino) (d : Ino) : Ino :=
  (parents d).getD rootDirIno

/-- Directories form a tree under the root, apart from the entries held. -/
structure Tree (held : List DirEntry) (dirs : Ino → Option DirectoryObject)
    (parents : Ino → Option Ino) : Prop where
  root : (dirs rootDirIno).isSome
  unnamed : references (entryAt dirs) (·.ino) rootDirIno + held.countP (·.ino = rootDirIno) = 0
  named : ∀ d, (dirs d).isSome → d ≠ rootDirIno →
    0 < references (entryAt dirs) (·.ino) d + held.countP (·.ino = d)
  parent : ∀ place e, entryAt dirs place = some e → e.kind = .directory →
    parents e.ino = some place.1
  rooted : ∀ d, (dirs d).isSome → Leads (parentOf parents) rootDirIno (fun _ ↦ True) d

section Parts

variable {exact : Bool} {held : List DirEntry} {inodes : Table Ino InodeObject}
  {dirs : Ino → Option DirectoryObject} {parents : Ino → Option Ino} {e : DirEntry}
  {inode : InodeObject} {d ino parent : Ino} {name : String}

theorem parentOf_update (parents : Ino → Option Ino) (ino : Ino) (parent : Option Ino) :
    parentOf (update parents ino parent) =
      update (parentOf parents) ino (parent.getD rootDirIno) := by
  funext d
  by_cases heq : d = ino <;> simp [parentOf, heq]

/-- Forgetting a parent record keeps every way to the root. -/
theorem leads_forget {P : Ino → Prop} (h : Leads (parentOf parents) rootDirIno P d) (ino : Ino) :
    Leads (parentOf (update parents ino none)) rootDirIno P d := by
  rw [parentOf_update]
  exact h.redirect .root

/-- A held entry goes into a directory; the parent record of a directory must say so. -/
theorem Tree.addEntry (h : Tree (e :: held) dirs parents)
    (hc : Consistent exact (e :: held) inodes dirs) (hparent : (dirs parent).isSome)
    (hfree : entryAt dirs (parent, name) = none)
    (hrecord : e.kind = .directory → parents e.ino = some parent) :
    Tree held (update dirs parent
      (some (sortEntries ((dirs parent).getD [] ++ [⟨name, e.ino, e.kind⟩])))) parents := by
  obtain ⟨dir, hdir⟩ := isSome_iff_exists.1 hparent
  obtain ⟨_, hentries⟩ := entryAt_add (e := ⟨name, e.ino, e.kind⟩) hc.names hdir hfree
  have hcount : ∀ i, references (update (entryAt dirs) (parent, name)
      (some ⟨name, e.ino, e.kind⟩)) (·.ino) i + held.countP (·.ino = i) =
      references (entryAt dirs) (·.ino) i + (e :: held).countP (·.ino = i) := by
    intro i
    rw [countP_cons, references_update_some hc.finite hfree]
    simp only [decide_eq_true_eq]
    omega
  have hsome : ∀ d, (update dirs parent
      (some (sortEntries (dir ++ [⟨name, e.ino, e.kind⟩]))) d).isSome ↔ (dirs d).isSome := by
    intro d
    by_cases heq : d = parent <;> simp [heq, hdir]
  rw [hdir, getD_some]
  refine ⟨(hsome _).2 h.root, ?_, fun d hd hne ↦ ?_, fun place e' he' hkind ↦ ?_,
    fun d hd ↦ h.rooted d ((hsome d).1 hd)⟩
  · rw [hentries, hcount]
    exact h.unnamed
  · rw [hentries, hcount]
    exact h.named d ((hsome d).1 hd) hne
  · rw [hentries] at he'
    rcases of_update he' with ⟨rfl, ⟨⟩⟩ | ⟨-, he'⟩
    · exact hrecord hkind
    · exact h.parent place e' he' hkind

/-- The entry of a file may be dropped. -/
theorem Tree.dropFile (h : Tree (e :: held) dirs parents)
    (hfile : dirs e.ino = none) : Tree held dirs parents := by
  have hne : ∀ d, (dirs d).isSome → d ≠ e.ino := by
    rintro d hd rfl
    simp [hfile] at hd
  have hcount : ∀ d, d ≠ e.ino → (e :: held).countP (·.ino = d) = held.countP (·.ino = d) := by
    intro d hd
    simp [Ne.symm hd]
  refine ⟨h.root, ?_, fun d hd hroot ↦ ?_, h.parent, h.rooted⟩
  · rw [← hcount _ (hne _ h.root)]
    exact h.unnamed
  · rw [← hcount d (hne d hd)]
    exact h.named d hd hroot

/-- An entry of a file may be held besides. -/
theorem Tree.holdFile (h : Tree held dirs parents) (hfile : dirs e.ino = none) :
    Tree (e :: held) dirs parents := by
  have hne : rootDirIno ≠ e.ino := by
    intro heq
    have hroot := h.root
    simp [heq, hfile] at hroot
  refine ⟨h.root, ?_, fun d hd hroot ↦ ?_, h.parent, h.rooted⟩
  · rw [countP_cons_of_neg (by simpa using hne.symm)]
    exact h.unnamed
  · have hpos := h.named d hd hroot
    rw [countP_cons]
    omega

/-- The parent record of a file may be forgotten. -/
theorem Tree.forgetFile (h : Tree held dirs parents) (hc : Consistent exact held inodes dirs)
    (hfile : dirs ino = none) : Tree held dirs (update parents ino none) := by
  refine ⟨h.root, h.unnamed, h.named, fun place e he hkind ↦ ?_,
    fun d hd ↦ leads_forget (h.rooted d hd) ino⟩
  have hne : e.ino ≠ ino := by
    rintro rfl
    obtain ⟨inode, hinode, hinodeKind⟩ := hc.entry place e he
    have hdir := (hc.directory e.ino).2 ⟨inode, hinode, hinodeKind.trans hkind⟩
    simp [hfile] at hdir
  rw [update_of_ne hne]
  exact h.parent place e he hkind

/-- A directory without entries goes with the only entry that names it. -/
theorem Tree.erase (h : Tree (e :: held) dirs parents)
    (hc : Consistent exact (e :: held) inodes dirs) (hkind : e.kind = .directory)
    (hempty : dirs e.ino = some []) :
    Tree held (update dirs e.ino none) (update parents e.ino none) := by
  obtain ⟨inode, hinode, hinodeKind⟩ := hc.heldEntry e mem_cons_self
  have hlinks := hc.links e.ino inode hinode
  rw [LinkCount, if_pos (hinodeKind.trans hkind), countP_cons_of_pos (by simp)] at hlinks
  have hroot : rootDirIno ≠ e.ino := by
    intro heq
    have := h.unnamed
    rw [heq, countP_cons_of_pos (by simp)] at this
    omega
  have hcount : ∀ d, d ≠ e.ino → (e :: held).countP (·.ino = d) = held.countP (·.ino = d) := by
    intro d hd
    simp [Ne.symm hd]
  have hsome : ∀ d, (update dirs e.ino none d).isSome → d ≠ e.ino ∧ (dirs d).isSome := by
    intro d hd
    by_cases heq : d = e.ino
    · simp [heq] at hd
    · exact ⟨heq, by simpa [heq] using hd⟩
  refine ⟨?_, ?_, fun d hd hne ↦ ?_, fun place e' he' hdir ↦ ?_, fun d hd ↦ ?_⟩
  · simpa [hroot] using h.root
  · rw [entryAt_erase (.inr hempty), ← hcount _ hroot]
    exact h.unnamed
  · rw [entryAt_erase (.inr hempty), ← hcount d (hsome d hd).1]
    exact h.named d (hsome d hd).2 hne
  · rw [entryAt_erase (.inr hempty)] at he'
    have hne : e'.ino ≠ e.ino := by
      intro heq
      have hpos := references_pos (·.ino) hc.finite he'
      rw [heq] at hpos
      omega
    rw [update_of_ne hne]
    exact h.parent place e' he' hdir
  · exact leads_forget (h.rooted d (hsome d hd).2) e.ino

/-- The parent record of a node that no entry names may change, as long as the way from the
new parent to the root avoids the node. -/
theorem Tree.setParent (h : Tree held dirs parents)
    (hunnamed : ∀ place e, entryAt dirs place = some e → e.kind = .directory → e.ino ≠ ino)
    (hway : Leads (parentOf parents) rootDirIno (· ≠ ino) parent) :
    Tree held dirs (update parents ino (some parent)) := by
  refine ⟨h.root, h.unnamed, h.named, fun place e he hkind ↦ ?_, fun d hd ↦ ?_⟩
  · rw [update_of_ne (hunnamed place e he hkind)]
    exact h.parent place e he hkind
  · rw [parentOf_update]
    exact (h.rooted d hd).redirect (hway.imp fun _ hne ↦ ⟨trivial, hne⟩)

/-- The way from a directory to the root goes through directories. -/
theorem Tree.leads (h : Tree [] dirs parents) (hc : Consistent exact [] inodes dirs)
    (hd : (dirs d).isSome) : Leads (parentOf parents) rootDirIno (fun x ↦ (dirs x).isSome) d := by
  have hway := h.rooted d hd
  induction hway with
  | root => exact .root
  | @step d hne _ _ ih =>
    refine .step hne hd (ih ?_)
    have hpos := h.named d hd hne
    rw [countP_nil, Nat.add_zero] at hpos
    obtain ⟨place, e, he, rfl⟩ := (Set.ncard_pos (referrers_finite hc.finite)).1 hpos
    obtain ⟨_, hinode, hkind⟩ := hc.entry place e he
    have hdir : e.kind = .directory := by
      obtain ⟨x, hx, hxkind⟩ := (hc.directory e.ino).1 hd
      cases hinode.symm.trans hx
      exact hkind.symm.trans hxkind
    rw [parentOf, h.parent place e he hdir, getD_some]
    exact isSome_of_entryAt he

end Parts

/-- The entries of every directory are in the order of their names. -/
def Sorted (dirs : Ino → Option DirectoryObject) : Prop :=
  ∀ d dir, dirs d = some dir → dir.Pairwise fun a b ↦ a.name ≤ b.name

theorem Sorted.update {dirs : Ino → Option DirectoryObject} {dir : DirectoryObject}
    (h : Sorted dirs) (parent : Ino) (hdir : dir.Pairwise fun a b ↦ a.name ≤ b.name) :
    Sorted (update dirs parent (some dir)) :=
  forall_update h (by simpa using hdir)

theorem pairwise_sortEntries (dir : DirectoryObject) :
    (sortEntries dir).Pairwise fun a b ↦ a.name ≤ b.name := by
  have htotal : Std.Total fun a b : DirEntry ↦ a.name ≤ b.name := ⟨fun _ _ ↦ String.le_total _ _⟩
  have htrans : IsTrans DirEntry fun a b ↦ a.name ≤ b.name := ⟨fun _ _ _ ↦ String.le_trans⟩
  exact pairwise_insertionSort _ dir

/-- The invariants of a namespace. -/
structure Hierarchy (ns : Namespace) : Prop where
  consistent : Consistent true [] ns.inodes ns.dirs
  tree : Tree [] ns.dirs ns.parents
  sorted : Sorted ns.dirs
  fresh : ∀ i, (ns.inodes.lookup i).isSome → i < ns.nextIno

section Operations

variable {exact : Bool} {held : List DirEntry} {ns ns' : Namespace} {e : DirEntry}
  {d ino parent newParent : Ino} {name newName : String}

theorem Sorted.addEntry (h : Sorted ns.dirs) (parent : Ino) (e : DirEntry) :
    Sorted (ns.addEntry parent e).dirs :=
  h.update parent (pairwise_sortEntries _)

theorem Sorted.edited (h : Sorted ns.dirs) (hedited : ns.Edited ns') : Sorted ns'.dirs := by
  induction hedited with
  | refl | mark | setLinks => assumption
  | removeName _ parent _ ih =>
    refine forall_update ih fun _ hnew ↦ ?_
    obtain ⟨dir, hdir, rfl⟩ := map_eq_some_iff.1 hnew
    exact (ih parent dir hdir).filter _
  | remove _ _ ih => exact forall_update ih (by simp)
  | enter _ parent e _ _ ih => exact ih.addEntry parent e

theorem Hierarchy.edited (h : ns.Hierarchy) (hedited : ns.Edited ns')
    (hconsistent : Consistent true [] ns'.inodes ns'.dirs) (htree : Tree [] ns'.dirs ns'.parents) : ns'.Hierarchy := by
  have hedits := Edits.of_edited hedited
  exact ⟨hconsistent, htree, h.sorted.edited hedited, fun i hi ↦ hedits.nextIno.symm ▸ h.fresh i (hedits.isSome hi)⟩

theorem Tree.removeName (h : Tree held ns.dirs ns.parents)
    (hc : Consistent exact held ns.inodes ns.dirs) (he : entryAt ns.dirs (parent, name) = some e) :
    Tree (e :: held) (ns.removeName parent name).dirs (ns.removeName parent name).parents := by
  obtain ⟨_, hdir⟩ := isSome_iff_exists.1 (isSome_of_entryAt he)
  obtain ⟨_, hentries⟩ := entryAt_removeName hc.names hdir name
  rw [← dirs_removeName hdir] at hentries
  have hcount : ∀ i, references (entryAt (ns.removeName parent name).dirs) (·.ino) i +
      (e :: held).countP (·.ino = i) =
      references (entryAt ns.dirs) (·.ino) i + held.countP (·.ino = i) := by
    intro i
    rw [hentries, countP_cons, ← references_update_none (·.ino) i hc.finite he]
    simp only [decide_eq_true_eq]
    omega
  refine ⟨?_, ?_, fun d hd hne ↦ ?_, fun place e' he' hkind ↦ ?_, fun d hd ↦ ?_⟩
  · rw [isSome_removeName]
    exact h.root
  · rw [hcount]
    exact h.unnamed
  · rw [isSome_removeName] at hd
    rw [hcount]
    exact h.named d hd hne
  · rw [hentries] at he'
    rcases of_update he' with ⟨-, ⟨⟩⟩ | ⟨-, he'⟩
    exact h.parent place e' he' hkind
  · rw [isSome_removeName] at hd
    exact h.rooted d hd

theorem Tree.releaseInodeRef (h : Tree (e :: held) ns.dirs ns.parents)
    (hc : Consistent exact (e :: held) ns.inodes ns.dirs) (hkind : e.kind ≠ .directory) :
    Tree held (ns.releaseInodeRef e.ino).dirs (ns.releaseInodeRef e.ino).parents := by
  obtain ⟨_, hinode, hinodeKind⟩ := hc.heldEntry e mem_cons_self
  have hfile := hc.dirs_eq_none hinode (hinodeKind ▸ hkind)
  have hdrop := h.dropFile hfile
  rw [dirs_releaseInodeRef hfile]
  unfold Namespace.releaseInodeRef
  rw [hinode]
  dsimp only
  split_ifs
  · exact hdrop
  · exact (h.forgetFile hc hfile).dropFile hfile

section

variable (h : ns.Hierarchy)

include h

namespace Hierarchy

theorem unlink (hok : ns.unlink parent name = .ok ns') : ns'.Hierarchy := by
  refine h.edited (.unlink hok) (h.consistent.unlink hok) ?_
  obtain ⟨_, hentry, hkind, rfl⟩ := unlink_ok hok
  exact (h.tree.removeName h.consistent hentry).releaseInodeRef (h.consistent.removeName hentry) hkind

theorem rmdir (hok : ns.rmdir parent name = .ok ns') : ns'.Hierarchy := by
  refine h.edited (.rmdir hok) (h.consistent.rmdir hok) ?_
  obtain ⟨_, hentry, hkind, hempty, rfl⟩ := rmdir_ok hok
  exact (h.tree.removeName h.consistent hentry).erase (h.consistent.removeName hentry) hkind
    (h.consistent.replaced_empty hentry hkind (by simp [hempty]))

theorem link (hok : ns.link ino newParent newName = .ok ns') : ns'.Hierarchy := by
  refine h.edited (.link hok) (h.consistent.link hok) ?_
  obtain ⟨inode, hinode, hkind, hparent, hfree, rfl⟩ := link_ok hok
  have hfile := h.consistent.dirs_eq_none hinode hkind
  have hheld := h.tree.holdFile (e := ⟨newName, ino, inode.kind⟩) hfile
  exact hheld.addEntry (h.consistent.addLink hinode hkind newName) hparent hfree
    fun hdir ↦ absurd hdir hkind

/-- A directory is not one that is about to be created. -/
theorem ne_nextIno (hd : (ns.dirs d).isSome) : d ≠ ns.nextIno := by
  obtain ⟨_, hinode, _⟩ := (h.consistent.directory d).1 hd
  exact Nat.ne_of_lt (h.fresh d (by simp [hinode]))

theorem lookup_nextIno : ns.inodes.lookup ns.nextIno = none := by
  rw [← not_isSome_iff_eq_none]
  exact fun hsome ↦ Nat.lt_irrefl _ (h.fresh _ hsome)

theorem dirs_nextIno : ns.dirs ns.nextIno = none := by
  rw [← not_isSome_iff_eq_none]
  exact fun hsome ↦ h.ne_nextIno hsome rfl

/-- A new inode under its parent record, its entry held. -/
theorem tree_create (hparent : (ns.dirs parent).isSome) (name : String) (kind : InodeKind) :
    Tree [⟨name, ns.nextIno, kind⟩]
      (if kind = .directory then update ns.dirs ns.nextIno (some []) else ns.dirs)
      (update ns.parents ns.nextIno (some parent)) := by
  have hway : Leads (parentOf ns.parents) rootDirIno (· ≠ ns.nextIno) parent :=
    (h.tree.leads h.consistent hparent).imp fun _ hx ↦ h.ne_nextIno hx
  have hunnamed : ∀ place e, entryAt ns.dirs place = some e → e.ino ≠ ns.nextIno := by
    rintro place e he heq
    obtain ⟨_, hinode, _⟩ := h.consistent.entry place e he
    rw [heq, h.lookup_nextIno] at hinode
    simp at hinode
  have hmoved := h.tree.setParent (fun place e he _ ↦ hunnamed place e he) hway
  have hsome : ∀ d, ((if kind = .directory then update ns.dirs ns.nextIno (some [])
      else ns.dirs) d).isSome → d = ns.nextIno ∨ (ns.dirs d).isSome := by
    intro d hd
    by_cases heq : d = ns.nextIno
    · exact .inl heq
    · right
      split_ifs at hd
      · simpa [heq] using hd
      · exact hd
  have hentries := entryAt_new h.dirs_nextIno kind
  have hroot := h.ne_nextIno h.tree.root
  refine ⟨?_, ?_, fun d hd hne ↦ ?_, fun place e he hkind ↦ ?_, fun d hd ↦ ?_⟩
  · split_ifs
    · simpa [hroot] using h.tree.root
    · exact h.tree.root
  · rw [hentries, countP_cons_of_neg (by simpa using hroot.symm)]
    exact h.tree.unnamed
  · rw [hentries]
    rcases hsome d hd with rfl | hd
    · simp
    · exact Nat.lt_of_lt_of_le (h.tree.named d hd hne) (by simp)
  · rw [hentries] at he
    exact hmoved.parent place e he hkind
  · rcases hsome d hd with rfl | hd
    · refine .step hroot.symm trivial ?_
      rw [parentOf, update_self, getD_some]
      exact hmoved.rooted parent hparent
    · exact hmoved.rooted d hd

theorem createEntry {kind : InodeKind} {target : String}
    (hok : ns.createEntry parent name kind target = .ok (ino, ns')) : ns'.Hierarchy := by
  have hfresh := h.lookup_nextIno
  refine ⟨h.consistent.createEntry hfresh hok, ?_, ?_, fun i hi ↦ ?_⟩
  · obtain ⟨hparent, hfree, rfl, rfl⟩ := createEntry_eq hok
    refine (h.tree_create hparent name kind).addEntry
      (h.consistent.create hfresh name kind target) ?_ ?_ fun _ ↦ update_self _ _ _
    · split_ifs
      · simpa [h.ne_nextIno hparent] using hparent
      · exact hparent
    · rw [entryAt_new h.dirs_nextIno]
      exact hfree
  · obtain ⟨_, _, rfl, rfl⟩ := createEntry_eq hok
    have hnew : Sorted (if kind = .directory then update ns.dirs ns.nextIno (some [])
        else ns.dirs) := by
      split_ifs
      · exact h.sorted.update _ .nil
      · exact h.sorted
    exact hnew.update parent (pairwise_sortEntries _)
  · obtain ⟨rfl, hnext, _, hlookup, _⟩ := createEntry_ok hok
    rw [hnext]
    rw [hlookup] at hi
    split_ifs at hi with heq
    · exact heq ▸ Nat.lt_succ_self _
    · exact Nat.lt_succ_of_lt (h.fresh i hi)

end Hierarchy

end

/-- A walk that the bound does not cut short and that does not meet the target has gone the
whole way to the root. -/
theorem leads_of_walkReaches {target : Ino} {bound n : Nat}
    (hwalk : ns.walkReaches target bound d = false) (hn : n < bound)
    (hroot : (parentOf ns.parents)^[n] d = rootDirIno)
    (hway : ∀ k < n, (parentOf ns.parents)^[k] d ≠ rootDirIno) :
    Leads (parentOf ns.parents) rootDirIno (· ≠ target) d := by
  induction n generalizing d bound with
  | zero =>
    obtain rfl : d = rootDirIno := hroot
    exact .root
  | succ n ih =>
    obtain ⟨_, rfl⟩ := Nat.exists_eq_succ_of_ne_zero (Nat.ne_of_gt (Nat.zero_lt_of_lt hn))
    have hne : d ≠ rootDirIno := hway 0 (Nat.succ_pos n)
    simp only [walkReaches, hne, if_false] at hwalk
    split_ifs at hwalk with htarget
    refine .step hne htarget (ih hwalk (Nat.lt_of_succ_lt_succ hn) hroot fun k hk ↦ ?_)
    exact hway (k + 1) (Nat.succ_lt_succ hk)

/-- The check of a rename: the way from the new parent to the root avoids what is moved. -/
theorem Hierarchy.leads_newParent (h : ns.Hierarchy)
    (hsource : entryAt ns.dirs (parent, name) = some e) (hparent : (ns.dirs newParent).isSome)
    (hwalk : e.kind = .directory →
      ns.walkReaches e.ino (ns.inodes.toList.length + 1) newParent = false) :
    Leads (parentOf ns.parents) rootDirIno (· ≠ e.ino) newParent := by
  have hleads := h.tree.leads h.consistent hparent
  by_cases hkind : e.kind = .directory
  · obtain ⟨n, hroot, hway⟩ := hleads.exists_iterate
    have hmem : ∀ d, (ns.dirs d).isSome → d ∈ ns.inodes.keys.toFinset := by
      intro d hd
      obtain ⟨_, hinode, _⟩ := (h.consistent.directory d).1 hd
      have hkey : d ∈ ns.inodes := AList.lookup_isSome.1 (by simp [hinode])
      exact mem_toFinset.2 (AList.mem_keys.1 hkey)
    have hn := length_le_card hroot fun k hk ↦ ⟨(hway k hk).1, hmem _ (hway k hk).2⟩
    have hcard : ns.inodes.keys.toFinset.card ≤ ns.inodes.toList.length := by
      rw [Table.toList, length_map]
      refine (toFinset_card_le _).trans ?_
      rw [AList.keys, keys, length_map]
    exact leads_of_walkReaches (hwalk hkind) (Nat.lt_succ_of_le (hn.trans hcard)) hroot
      fun k hk ↦ (hway k hk).1
  · obtain ⟨_, hinode, hinodeKind⟩ := h.consistent.entry _ e hsource
    have hfile := h.consistent.dirs_eq_none hinode (hinodeKind ▸ hkind)
    refine hleads.imp fun d hd ↦ ?_
    rintro rfl
    simp [hfile] at hd

theorem Tree.dropReplaced (h : Tree held ns.dirs ns.parents)
    (hc : Consistent exact held ns.inodes ns.dirs)
    (hempty : ∀ existing, entryAt ns.dirs (newParent, newName) = some existing →
      existing.kind = .directory → (ns.dirs existing.ino).getD [] = []) :
    Tree held (ns.dropReplaced newParent newName (entryAt ns.dirs (newParent, newName))).dirs
      (ns.dropReplaced newParent newName (entryAt ns.dirs (newParent, newName))).parents := by
  cases hexisting : entryAt ns.dirs (newParent, newName) with
  | none => exact h
  | some existing =>
    have hheld := h.removeName hc hexisting
    unfold Namespace.dropReplaced
    dsimp only
    split_ifs with hkind
    · exact hheld.erase (hc.removeName hexisting) hkind
        (hc.replaced_empty hexisting hkind (hempty existing hexisting hkind))
    · exact hheld.releaseInodeRef (hc.removeName hexisting) hkind

/-- Dropping what a rename replaces keeps every way to the root. -/
theorem leads_dropReplaced {P : Ino → Prop} (newName : String) (existing : Option DirEntry)
    (h : Leads (parentOf ns.parents) rootDirIno P d) :
    Leads (parentOf (ns.dropReplaced newParent newName existing).parents) rootDirIno P d := by
  unfold dropReplaced
  split
  · exact h
  · dsimp only
    split_ifs
    · exact leads_forget h _
    · unfold releaseInodeRef
      split
      · exact h
      · split_ifs
        · exact h
        · exact leads_forget h _

theorem Hierarchy.rename {noReplace : Bool} (h : ns.Hierarchy)
    (hok : ns.rename parent name newParent newName noReplace = .ok ns') : ns'.Hierarchy := by
  refine h.edited (.rename hok) (h.consistent.rename hok) ?_
  obtain ⟨source, hsource, hparent, rfl | ⟨hne, hwalk, hempty, rfl⟩⟩ := rename_ok hok
  · exact h.tree
  · have hentry := entryAt_removeName_of_ne h.consistent.names hsource hne
    have hparent' : ((ns.removeName parent name).dirs newParent).isSome :=
      (isSome_removeName newParent).trans hparent
    have hempty' := replaced_empty_of_removeName hsource hentry hempty
    have hc := h.consistent.removeName hsource
    obtain ⟨hc', hsome, hfree⟩ := hc.dropReplaced hempty' hparent'
    have ht' := (h.tree.removeName h.consistent hsource).dropReplaced hc hempty'
    rw [hentry] at hc' hsome hfree ht'
    -- no entry names the moved directory while its own is held
    have hunnamed : ∀ place e, entryAt (((ns.removeName parent name).dropReplaced newParent
        newName (entryAt ns.dirs (newParent, newName))).dirs) place = some e →
        e.kind = .directory → e.ino ≠ source.ino := by
      rintro place e he hkind heq
      obtain ⟨inode, hinode, hinodeKind⟩ := hc'.entry place e he
      have hlinks := hc'.links e.ino inode hinode
      have hpos := references_pos (·.ino) hc'.finite he
      rw [LinkCount, if_pos (hinodeKind.trans hkind),
        countP_cons_of_pos (by simp [heq])] at hlinks
      omega
    have hway : Leads (parentOf ((ns.removeName parent name).dropReplaced newParent newName
        (entryAt ns.dirs (newParent, newName))).parents) rootDirIno (· ≠ source.ino) newParent :=
      leads_dropReplaced _ _ (h.leads_newParent hsource hparent hwalk)
    exact (ht'.setParent hunnamed hway).addEntry hc' hsome hfree
      fun _ ↦ update_self _ _ _

theorem Hierarchy.call (h : ns.Hierarchy) {call : Call} (hok : call.result ns = .ok ns') :
    ns'.Hierarchy := by
  cases call with
  | createEntry parent name kind target =>
    rw [Call.result] at hok
    cases hcreate : ns.createEntry parent name kind target with
    | error => simp [hcreate, Except.map] at hok
    | ok created =>
      obtain rfl : created.2 = ns' := by simpa [hcreate, Except.map] using hok
      exact h.createEntry hcreate
  | unlink => exact h.unlink hok
  | rmdir => exact h.rmdir hok
  | link => exact h.link hok
  | rename => exact h.rename hok

theorem hierarchy_create : create.Hierarchy := by
  refine ⟨consistent_create true, ⟨by decide, ?_, ?_, ?_, ?_⟩, ?_, fun i hi ↦ ?_⟩
  · rw [references_create]
    rfl
  · intro d hd hne
    obtain ⟨_, hdir⟩ := isSome_iff_exists.1 hd
    exact absurd (dirs_create hdir).1 hne
  · intro _ e he
    simp [entryAt_create] at he
  · intro d hd
    obtain ⟨_, hdir⟩ := isSome_iff_exists.1 hd
    exact (dirs_create hdir).1 ▸ .root
  · intro d _ hd
    simp [(dirs_create hd).2]
  · obtain ⟨_, hinode⟩ := isSome_iff_exists.1 hi
    exact (lookup_create hinode).1 ▸ Nat.lt_succ_self _

theorem Hierarchy.runCalls (h : ns.Hierarchy) (calls : List Call) : (ns.runCalls calls).Hierarchy := by
  induction calls generalizing ns with
  | nil => exact h
  | cons call _ ih =>
    refine ih ?_
    dsimp only
    rw [Call.exec_code]
    cases hresult : call.result ns with
    | error => exact h
    | ok => exact h.call hresult

end Operations

/-- What every namespace of a running pool satisfies: sorted entries of unique names, each
naming an inode of its kind; link counts that are the numbers of entries; and directories
that form a tree under the root, each named once, by the directory its parent record says. -/
structure WellFormed (ns : Namespace) : Prop where
  sorted : ∀ d dir, ns.dirs d = some dir → dir.Pairwise fun a b ↦ a.name < b.name
  entry : ∀ d dir e, ns.dirs d = some dir → e ∈ dir →
    ∃ inode, ns.inodes.lookup e.ino = some inode ∧ inode.kind = e.kind
  nlink : ∀ i inode, ns.inodes.lookup i = some inode → inode.kind ≠ .directory →
    inode.nlink = ns.linkCount i
  directory : ∀ d, (ns.dirs d).isSome ↔
    ∃ inode, ns.inodes.lookup d = some inode ∧ inode.kind = .directory
  root : (ns.dirs rootDirIno).isSome ∧ ns.linkCount rootDirIno = 0
  single : ∀ d, (ns.dirs d).isSome → d ≠ rootDirIno → ns.linkCount d = 1
  parent : ∀ d dir e, ns.dirs d = some dir → e ∈ dir → e.kind = .directory →
    ns.parents e.ino = some d
  tree : ∀ d, (ns.dirs d).isSome →
    Leads (parentOf ns.parents) rootDirIno (fun x ↦ (ns.dirs x).isSome) d

theorem Hierarchy.wellFormed {ns : Namespace} (h : ns.Hierarchy) : ns.WellFormed := by
  have hc := h.consistent
  have hplace : ∀ d dir e, ns.dirs d = some dir → e ∈ dir → entryAt ns.dirs (d, e.name) = some e :=
    fun d dir e hdir he ↦ (entryAt_eq_some hc.names).2 ⟨dir, hdir, he, rfl⟩
  refine ⟨fun d dir hdir ↦ ?_, fun d dir e hdir he ↦ hc.entry _ e (hplace d dir e hdir he),
    fun i inode hi hkind ↦ ?_, hc.directory, ⟨h.tree.root, ?_⟩, fun d hd hne ↦ ?_,
    fun d dir e hdir he ↦ h.tree.parent _ e (hplace d dir e hdir he), fun d ↦ h.tree.leads hc⟩
  · have hnames : dir.Pairwise fun a b ↦ a.name ≠ b.name := pairwise_map.1 (hc.names d dir hdir)
    refine ((h.sorted d dir hdir).and hnames).imp fun {a b} hab ↦ ?_
    exact String.not_le.1 fun hle ↦ hab.2 (String.le_antisymm hab.1 hle)
  · have hlinks := hc.links i inode hi
    rw [LinkCount, if_neg hkind, if_pos rfl] at hlinks
    rw [linkCount_eq_references hc]
    exact hlinks.symm
  · rw [linkCount_eq_references hc]
    exact h.tree.unnamed
  · obtain ⟨inode, hinode, hkind⟩ := (hc.directory d).1 hd
    have hlinks := hc.links d inode hinode
    have hpos := h.tree.named d hd hne
    rw [LinkCount, if_pos hkind] at hlinks
    rw [countP_nil, Nat.add_zero] at hlinks hpos
    rw [linkCount_eq_references hc]
    omega

/-- After any calls on a new pool the namespace is well formed, and a call that returns an
error leaves it as it was. -/
theorem namespace_well_formed (calls : List Call) : (create.runCalls calls).WellFormed ∧
      ∀ (call : Call) (e : PoolError), (call.code.exec (create.runCalls calls)).1 = .error e →
        (call.code.exec (create.runCalls calls)).2 = create.runCalls calls := by
  refine ⟨(hierarchy_create.runCalls calls).wellFormed, fun call e hfail ↦ ?_⟩
  rw [Call.exec_code] at hfail ⊢
  cases hresult : call.result (create.runCalls calls) with
  | error => rfl
  | ok => simp [hresult, outcome, Except.map] at hfail

/-- A directory is moved over an empty one, and then into its own subtree, which is
refused. -/
theorem namespace_well_formed_refused_rename :
    let ns := create.runCalls [.createEntry 1 "a" .directory "", .createEntry 2 "b" .directory "",
      .createEntry 1 "c" .directory "", .rename 1 "a" 1 "c" false]
    ns.dirs 1 = some [⟨"c", 2, .directory⟩] ∧ ns.dirs 4 = none ∧ ns.WellFormed ∧
      ((Call.rename 1 "c" 3 "d" false).code.exec ns).1 =
        .error (.invalidArgument "cannot move a directory into its own subtree") ∧
      ((Call.rename 1 "c" 3 "d" false).code.exec ns).2 = ns := by
  intro ns
  have hfail : ((Call.rename 1 "c" 3 "d" false).code.exec ns).1 =
      .error (.invalidArgument "cannot move a directory into its own subtree") := rfl
  have hns := namespace_well_formed [.createEntry 1 "a" .directory "",
    .createEntry 2 "b" .directory "", .createEntry 1 "c" .directory "", .rename 1 "a" 1 "c" false]
  exact ⟨by decide +kernel, by decide +kernel, hns.1, hfail, hns.2 _ _ hfail⟩

end Namespace

end Lchfs.Store
