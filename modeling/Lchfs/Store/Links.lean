import Lchfs.Library.References
import Lchfs.Store.Namespace

/-!
# Names and links

A namespace is consistent when every directory entry names an inode of its kind and the
inodes' link counts cover the entries that name them. The operations on names take
entries out of directories and put them back, so between two of their parts some entries
are held in neither; `Consistent` counts those too, and each part of an operation moves
an entry from the directories to the held ones or back.

With `exact` the link counts are the numbers of entries, without it they are bounds.
-/

namespace Lchfs.Store

open Lchfs.Format Lchfs.Library
open List Option
open Function Table Namespace

namespace Namespace

/-- No directory has two entries of one name. -/
def NamesUnique (dirs : Ino → Option DirectoryObject) : Prop :=
  ∀ d dir, dirs d = some dir → (dir.map (·.name)).Nodup

section Directories

variable {dirs : Ino → Option DirectoryObject} {dir : DirectoryObject} {d parent : Ino}
  {name : String} {e : DirEntry}

theorem find_eq_some (hdir : (dir.map (·.name)).Nodup) :
    dir.find? (·.name = name) = some e ↔ e ∈ dir ∧ e.name = name := by
  constructor
  · intro h
    exact ⟨mem_of_find?_eq_some h, by simpa using find?_some h⟩
  · rintro ⟨hmem, rfl⟩
    obtain ⟨e', he'⟩ : ∃ e', dir.find? (·.name = e.name) = some e' := by
      rw [← isSome_iff_exists, find?_isSome]
      exact ⟨e, hmem, by simp⟩
    have hname : e'.name = e.name := by simpa using find?_some he'
    rw [he', inj_on_of_nodup_map hdir (mem_of_find?_eq_some he') hmem hname]

theorem entryAt_eq_some (h : NamesUnique dirs) :
    entryAt dirs (d, name) = some e ↔ ∃ dir, dirs d = some dir ∧ e ∈ dir ∧ e.name = name := by
  simp only [entryAt, bind_eq_some_iff]
  constructor
  · rintro ⟨dir, hdir, he⟩
    exact ⟨dir, hdir, (find_eq_some (h d dir hdir)).1 he⟩
  · rintro ⟨dir, hdir, he⟩
    exact ⟨dir, hdir, (find_eq_some (h d dir hdir)).2 he⟩

theorem isSome_of_entryAt (h : entryAt dirs (d, name) = some e) : (dirs d).isSome := by
  obtain ⟨_, hdir, _⟩ := bind_eq_some_iff.1 h
  simp only at hdir
  simp [hdir]

/-- What holds of every directory holds still when one of them is replaced or goes. -/
theorem forall_update {P : DirectoryObject → Prop} {new : Option DirectoryObject}
    (h : ∀ d dir, dirs d = some dir → P dir) (hnew : ∀ dir ∈ new, P dir) (d : Ino) (dir : DirectoryObject)
    (hd : update dirs parent new d = some dir) : P dir := by
  by_cases heq : d = parent
  · exact hnew dir (by simpa [heq] using hd)
  · exact h d dir (by simpa [heq] using hd)

theorem NamesUnique.update (h : NamesUnique dirs) (hdir : (dir.map (·.name)).Nodup) :
    NamesUnique (update dirs parent (some dir)) :=
  forall_update h (by simpa using hdir)

theorem entryAt_update (dirs : Ino → Option DirectoryObject) (parent : Ino) (dir : DirectoryObject)
    (place : Ino × String) : entryAt (update dirs parent (some dir)) place =
      if place.1 = parent then dir.find? (·.name = place.2) else entryAt dirs place := by
  unfold entryAt
  split_ifs with heq <;> simp [heq]

/-- Giving up a directory without entries, or one that does not exist, changes no entry. -/
theorem entryAt_erase (h : dirs d = none ∨ dirs d = some []) :
    entryAt (update dirs d none) = entryAt dirs := by
  funext place
  unfold entryAt
  by_cases heq : place.1 = d
  · rcases h with h | h <;> simp [heq, h]
  · simp [heq]

/-- A new directory has no entry. -/
theorem entryAt_new (h : dirs d = none) (kind : InodeKind) :
    entryAt (if kind = .directory then update dirs d (some []) else dirs) =
      entryAt dirs := by
  funext place
  split_ifs
  · rw [entryAt_update]
    split_ifs with heq
    · simp [entryAt, heq, h]
    · rfl
  · rfl

theorem perm_sortEntries (dir : DirectoryObject) : (sortEntries dir).Perm dir :=
  perm_insertionSort _ dir

/-- A name that no entry has can be added. -/
theorem nodup_names_add (hdir : (dir.map (·.name)).Nodup) (hfree : dir.find? (·.name = e.name) = none) :
    ((sortEntries (dir ++ [e])).map (·.name)).Nodup := by
  rw [((perm_sortEntries _).map _).nodup_iff, map_append, nodup_append]
  refine ⟨hdir, by simp, ?_⟩
  simp only [find?_eq_none, decide_eq_true_eq] at hfree
  simpa using hfree

/-- The entries of a directory after one more is added. -/
theorem entryAt_add (h : NamesUnique dirs) (hdir : dirs parent = some dir)
    (hfree : entryAt dirs (parent, e.name) = none) :
    NamesUnique (update dirs parent (some (sortEntries (dir ++ [e])))) ∧
      entryAt (update dirs parent (some (sortEntries (dir ++ [e])))) =
        update (entryAt dirs) (parent, e.name) (some e) := by
  have hnodup := nodup_names_add (h parent dir hdir) ((entryAt_of_dirs hdir).symm.trans hfree)
  refine ⟨h.update hnodup, ?_⟩
  funext ⟨d, name⟩
  rw [entryAt_update]
  by_cases hd : d = parent
  · subst hd
    simp only [if_true, update_apply, Prod.mk.injEq, true_and]
    ext e'
    rw [find_eq_some hnodup, (perm_sortEntries _).mem_iff, mem_append, mem_singleton]
    split_ifs with hname
    · subst hname
      simp only [some.injEq]
      constructor
      · rintro ⟨hmem | rfl, heq⟩
        · have : entryAt dirs (d, e.name) = some e' := (entryAt_eq_some h).2 ⟨dir, hdir, hmem, heq⟩
          simp [hfree] at this
        · rfl
      · rintro rfl
        exact ⟨.inr rfl, rfl⟩
    · rw [entryAt_eq_some h]
      constructor
      · rintro ⟨hmem | rfl, heq⟩
        · exact ⟨dir, hdir, hmem, heq⟩
        · exact absurd heq.symm hname
      · rintro ⟨_, hdir', hmem, heq⟩
        cases hdir.symm.trans hdir'
        exact ⟨.inl hmem, heq⟩
  · rw [if_neg hd, update_of_ne (by simp [hd])]

/-- The entries of a directory after a name is taken out. -/
theorem entryAt_removeName (h : NamesUnique dirs) (hdir : dirs parent = some dir) (name : String) :
    NamesUnique (update dirs parent (some (dir.filter (·.name ≠ name)))) ∧
      entryAt (update dirs parent (some (dir.filter (·.name ≠ name)))) =
        update (entryAt dirs) (parent, name) none := by
  have hnodup : ((dir.filter (·.name ≠ name)).map (·.name)).Nodup :=
    (h parent dir hdir).sublist (filter_sublist.map _)
  refine ⟨h.update hnodup, ?_⟩
  funext ⟨d, name'⟩
  rw [entryAt_update]
  by_cases hd : d = parent
  · subst hd
    simp only [if_true, update_apply, Prod.mk.injEq, true_and]
    split_ifs with hname
    · subst hname
      simp
    · ext e'
      rw [find_eq_some hnodup, entryAt_of_dirs hdir, find_eq_some (h d dir hdir), mem_filter]
      constructor
      · rintro ⟨⟨hmem, _⟩, heq⟩
        exact ⟨hmem, heq⟩
      · rintro ⟨hmem, rfl⟩
        exact ⟨⟨hmem, by simpa using hname⟩, rfl⟩
  · rw [if_neg hd, update_of_ne (by simp [hd])]

end Directories

/-- How many entries, in directories or held, may name an inode: one for a directory, the
link count for everything else. -/
def LinkCount (exact : Bool) (count : Nat) (inode : InodeObject) : Prop :=
  if inode.kind = .directory then count ≤ 1
  else if exact then count = inode.nlink
  else count ≤ inode.nlink

/-- An inode of the entry's kind is there. -/
def Names (inodes : Table Ino InodeObject) (e : DirEntry) : Prop :=
  ∃ inode, inodes.lookup e.ino = some inode ∧ inode.kind = e.kind

/-- Every entry names an inode of its kind, a directory is named at most once, and the
link counts cover the entries in directories and those held. -/
structure Consistent (exact : Bool) (held : List DirEntry) (inodes : Table Ino InodeObject)
    (dirs : Ino → Option DirectoryObject) : Prop where
  names : NamesUnique dirs
  directory : ∀ d, (dirs d).isSome ↔
    ∃ inode, inodes.lookup d = some inode ∧ inode.kind = .directory
  entry : ∀ place e, entryAt dirs place = some e → Names inodes e
  heldEntry : ∀ e ∈ held, Names inodes e
  links : ∀ i inode, inodes.lookup i = some inode → LinkCount exact
    (references (entryAt dirs) (·.ino) i + held.countP (·.ino = i)) inode
  nlink_pos : ∀ i inode, inodes.lookup i = some inode → inode.kind ≠ .directory → 0 < inode.nlink

section Consistency

variable {exact : Bool} {held : List DirEntry} {inodes inodes' : Table Ino InodeObject}
  {dirs : Ino → Option DirectoryObject} {dir : DirectoryObject} {e : DirEntry} {inode : InodeObject}
  {d ino parent : Ino} {name : String}

theorem Consistent.finite (h : Consistent exact held inodes dirs) :
    {place | (entryAt dirs place).isSome}.Finite := by
  have hnames : ∀ d, {name | name ∈ ((dirs d).getD []).map (·.name)}.Finite :=
    fun d ↦ finite_toSet _
  apply (Set.Finite.biUnion (finite_toSet inodes.keys)
    fun d _ ↦ (hnames d).image fun name ↦ (d, name)).subset
  rintro ⟨d, _⟩ hsome
  obtain ⟨e, he⟩ := isSome_iff_exists.1 hsome
  obtain ⟨_, hdir, hmem, rfl⟩ := (entryAt_eq_some h.names).1 he
  obtain ⟨_, hinode, _⟩ := (h.directory d).1 (by simp [hdir])
  have hkey : d ∈ inodes := AList.lookup_isSome.1 (by simp [hinode])
  exact Set.mem_biUnion (AList.mem_keys.1 hkey) ⟨e.name, by simpa [hdir] using ⟨e, hmem, rfl⟩, rfl⟩

/-- Kinds and link counts are all that matters of the inodes. -/
theorem Consistent.congr (h : Consistent exact held inodes dirs)
    (hinodes : ∀ i, (inodes'.lookup i).map (fun x ↦ (x.kind, x.nlink)) =
      (inodes.lookup i).map fun x ↦ (x.kind, x.nlink)) : Consistent exact held inodes' dirs := by
  have hback : ∀ i x', inodes'.lookup i = some x' →
      ∃ x, inodes.lookup i = some x ∧ x.kind = x'.kind ∧ x.nlink = x'.nlink := by
    intro i _ hx'
    have hi := hinodes i
    rw [hx', map_some, eq_comm, map_eq_some_iff] at hi
    obtain ⟨x, hx, heq⟩ := hi
    exact ⟨x, hx, (Prod.mk.inj heq).1, (Prod.mk.inj heq).2⟩
  have hforth : ∀ i x, inodes.lookup i = some x →
      ∃ x', inodes'.lookup i = some x' ∧ x'.kind = x.kind := by
    intro i x hx
    have hi := hinodes i
    rw [hx, map_some, map_eq_some_iff] at hi
    obtain ⟨x', hx', heq⟩ := hi
    exact ⟨x', hx', (Prod.mk.inj heq).1⟩
  have hnames : ∀ e, Names inodes e → Names inodes' e := by
    rintro e ⟨x, hx, hkind⟩
    obtain ⟨x', hx', hkind'⟩ := hforth e.ino x hx
    exact ⟨x', hx', hkind'.trans hkind⟩
  refine ⟨h.names, fun d ↦ (h.directory d).trans ⟨?_, ?_⟩, fun p e he ↦ hnames e (h.entry p e he),
    fun e he ↦ hnames e (h.heldEntry e he), fun i x' hx' ↦ ?_, fun i x' hx' hkind ↦ ?_⟩
  · rintro ⟨x, hx, hkind⟩
    obtain ⟨x', hx', hkind'⟩ := hforth d x hx
    exact ⟨x', hx', hkind'.trans hkind⟩
  · rintro ⟨x', hx', hkind'⟩
    obtain ⟨x, hx, hkind, _⟩ := hback d x' hx'
    exact ⟨x, hx, hkind.trans hkind'⟩
  · obtain ⟨x, hx, hkind, hnlink⟩ := hback i x' hx'
    have hlinks := h.links i x hx
    rwa [LinkCount, hkind, hnlink] at hlinks
  · obtain ⟨x, hx, hkind', hnlink⟩ := hback i x' hx'
    exact hnlink ▸ h.nlink_pos i x hx (hkind' ▸ hkind)

/-- A held entry is put into a directory under a name that is free there. -/
theorem Consistent.addEntry (h : Consistent exact (e :: held) inodes dirs)
    (hparent : (dirs parent).isSome) (hfree : entryAt dirs (parent, name) = none) :
    Consistent exact held inodes (update dirs parent
      (some (sortEntries ((dirs parent).getD [] ++ [⟨name, e.ino, e.kind⟩])))) := by
  obtain ⟨_, hdir⟩ := isSome_iff_exists.1 hparent
  obtain ⟨hnames, hentries⟩ := entryAt_add (e := ⟨name, e.ino, e.kind⟩) h.names hdir hfree
  rw [hdir, getD_some]
  refine ⟨hnames, fun d ↦ ?_, fun place e' he' ↦ ?_, fun e' he' ↦ ?_, fun i x hx ↦ ?_, h.nlink_pos⟩
  · rw [← h.directory d]
    by_cases heq : d = parent <;> simp [heq, hdir]
  · rw [hentries] at he'
    rcases of_update he' with ⟨-, ⟨⟩⟩ | ⟨-, he'⟩
    · exact h.heldEntry e mem_cons_self
    · exact h.entry place e' he'
  · exact h.heldEntry e' (mem_cons_of_mem _ he')
  · have hlinks := h.links i x hx
    rw [countP_cons] at hlinks
    simp only [decide_eq_true_eq] at hlinks
    rw [hentries, references_update_some h.finite hfree]
    rwa [Nat.add_comm (held.countP _), ← Nat.add_assoc] at hlinks

theorem Names.insert (hinode : inodes.lookup ino = some inode) {inode' : InodeObject}
    (hkind : inode'.kind = inode.kind) (h : Names inodes e) : Names (inodes.insert ino inode') e := by
  obtain ⟨x, hx, hxkind⟩ := h
  by_cases heq : e.ino = ino
  · subst heq
    cases hx.symm.trans hinode
    exact ⟨inode', AList.lookup_insert _, hkind.trans hxkind⟩
  · exact ⟨x, (AList.lookup_insert_ne heq).trans hx, hxkind⟩

/-- The link count of a file changes together with the entries held. -/
theorem Consistent.setLinks {held' : List DirEntry} (h : Consistent exact held inodes dirs)
    (hinode : inodes.lookup ino = some inode) (hkind : inode.kind ≠ .directory) {nlink : Nat}
    (hpos : 0 < nlink) (hheld : ∀ e ∈ held', Names inodes e)
    (hother : ∀ i, i ≠ ino → held'.countP (·.ino = i) = held.countP (·.ino = i))
    (hcount : held'.countP (·.ino = ino) + inode.nlink = held.countP (·.ino = ino) + nlink) :
    Consistent exact held' (inodes.insert ino { inode with nlink := nlink }) dirs := by
  have hnames : ∀ e, Names inodes e → Names (inodes.insert ino { inode with nlink := nlink }) e :=
    fun e he ↦ he.insert hinode rfl
  refine ⟨h.names, fun d ↦ (h.directory d).trans ?_, fun p e he ↦ hnames e (h.entry p e he),
    fun e he ↦ hnames e (hheld e he), fun i x hx ↦ ?_, fun i x hx hx' ↦ ?_⟩
  · rw [lookup_insert_eq]
    split_ifs with heq
    · subst heq
      simp [hinode]
    · rfl
  · rcases of_lookup_insert hx with ⟨rfl, rfl⟩ | ⟨heq, hx⟩
    · have hlinks := h.links i inode hinode
      rw [LinkCount, if_neg hkind] at hlinks ⊢
      dsimp only
      split_ifs at hlinks ⊢ <;> omega
    · rw [hother i heq]
      exact h.links i x hx
  · rcases of_lookup_insert hx with ⟨-, rfl⟩ | ⟨-, hx⟩
    · exact hpos
    · exact h.nlink_pos i x hx hx'

/-- A held entry of a file with other links is dropped. -/
theorem Consistent.dropLink (h : Consistent exact (e :: held) inodes dirs)
    (hinode : inodes.lookup e.ino = some inode) (hkind : inode.kind ≠ .directory)
    (hpos : 0 < inode.nlink - 1) :
    Consistent exact held (inodes.insert e.ino { inode with nlink := inode.nlink - 1 }) dirs := by
  apply h.setLinks hinode hkind hpos fun e' he' ↦ h.heldEntry e' (mem_cons_of_mem _ he')
  · intro i hi
    simp [Ne.symm hi]
  · simp only [countP_cons, decide_true, if_true]
    omega

/-- A file gets one more link, for an entry held. -/
theorem Consistent.addLink (h : Consistent exact held inodes dirs)
    (hinode : inodes.lookup ino = some inode) (hkind : inode.kind ≠ .directory) (name : String) :
    Consistent exact (⟨name, ino, inode.kind⟩ :: held)
      (inodes.insert ino { inode with nlink := inode.nlink + 1 }) dirs := by
  apply h.setLinks hinode hkind (Nat.succ_pos _)
    (forall_mem_cons.2 ⟨⟨inode, hinode, rfl⟩, h.heldEntry⟩)
  · intro i hi
    simp [Ne.symm hi]
  · simp only [countP_cons, decide_true, if_true]
    omega

/-- The inode of the only entry that names it is removed with that entry. -/
theorem Consistent.erase (h : Consistent exact (e :: held) inodes dirs)
    (hinode : inodes.lookup e.ino = some inode) (hlast : inode.kind ≠ .directory → inode.nlink ≤ 1)
    (hempty : dirs e.ino = none ∨ dirs e.ino = some []) :
    Consistent exact held (inodes.erase e.ino) (update dirs e.ino none) := by
  have hzero : references (entryAt dirs) (·.ino) e.ino = 0 ∧ held.countP (·.ino = e.ino) = 0 := by
    have hlinks := h.links e.ino inode hinode
    rw [LinkCount, countP_cons] at hlinks
    simp only [decide_true, if_true] at hlinks
    split_ifs at hlinks with hkind
    · omega
    · have := hlast hkind
      omega
    · have := hlast hkind
      omega
  have hnames : ∀ e', e'.ino ≠ e.ino → Names inodes e' → Names (inodes.erase e.ino) e' := by
    rintro _ hne ⟨x, hx, hkind⟩
    exact ⟨x, by simpa [lookup_erase_eq, hne] using hx, hkind⟩
  refine ⟨forall_update h.names (by simp), fun d ↦ ?_, fun place e' he' ↦ ?_, fun e' he' ↦ ?_, fun i x hx ↦ ?_,
    fun i x hx ↦ ?_⟩
  · rw [lookup_erase_eq]
    by_cases heq : d = e.ino
    · simp [heq]
    · simp only [if_neg heq, update_of_ne heq]
      exact h.directory d
  · rw [entryAt_erase hempty] at he'
    refine hnames e' (fun heq ↦ ?_) (h.entry place e' he')
    have hpos := references_pos (·.ino) h.finite he'
    rw [heq, hzero.1] at hpos
    exact Nat.lt_irrefl 0 hpos
  · refine hnames e' (fun heq ↦ ?_) (h.heldEntry e' (mem_cons_of_mem _ he'))
    exact countP_eq_zero.1 hzero.2 e' he' (by simpa using heq)
  · obtain ⟨heq, hx⟩ := of_lookup_erase hx
    have hlinks := h.links i x hx
    rw [countP_cons, if_neg (by simpa using Ne.symm heq), Nat.add_zero] at hlinks
    rwa [entryAt_erase hempty]
  · exact h.nlink_pos i x (of_lookup_erase hx).2

/-- A new inode, for an entry held. -/
theorem Consistent.create (h : Consistent exact held inodes dirs) (hfresh : inodes.lookup ino = none)
    (name : String) (kind : InodeKind) (target : String) :
    Consistent exact (⟨name, ino, kind⟩ :: held) (inodes.insert ino (newInode kind target))
      (if kind = .directory then update dirs ino (some []) else dirs) := by
  have hdirs : dirs ino = none := by
    rw [← not_isSome_iff_eq_none, h.directory ino]
    simp [hfresh]
  have hentries := entryAt_new hdirs kind
  have hne : ∀ e, Names inodes e → e.ino ≠ ino := by
    rintro e ⟨x, hx, _⟩ rfl
    simp [hfresh] at hx
  have hnames : ∀ e, Names inodes e → Names (inodes.insert ino (newInode kind target)) e := by
    intro e he
    obtain ⟨x, hx, hkind⟩ := he
    exact ⟨x, by simpa [lookup_insert_eq, hne e ⟨x, hx, hkind⟩] using hx, hkind⟩
  have hnewKind : (newInode kind target).kind = kind := by cases kind <;> rfl
  refine ⟨?_, fun d ↦ ?_, fun place e he ↦ ?_, ?_, fun i x hx ↦ ?_, fun i x hx hx' ↦ ?_⟩
  · split_ifs
    · exact h.names.update (by simp)
    · exact h.names
  · rw [lookup_insert_eq]
    by_cases heq : d = ino
    · subst heq
      simp only [if_true, some.injEq, exists_eq_left', hnewKind]
      split_ifs with hkind <;> simp [hkind, hdirs]
    · rw [if_neg heq, ← h.directory d]
      split_ifs <;> simp [heq]
  · rw [hentries] at he
    exact hnames e (h.entry place e he)
  · exact forall_mem_cons.2 ⟨⟨newInode kind target, by simp, hnewKind⟩,
      fun e he ↦ hnames e (h.heldEntry e he)⟩
  · rw [hentries, countP_cons]
    rcases of_lookup_insert hx with ⟨rfl, rfl⟩ | ⟨heq, hx⟩
    · have hrefs : references (entryAt dirs) (·.ino) i = 0 :=
        references_eq_zero h.finite fun place e he ↦ hne e (h.entry place e he)
      have hheld : held.countP (·.ino = i) = 0 :=
        countP_eq_zero.2 fun e he ↦ by simpa using hne e (h.heldEntry e he)
      rw [hrefs, hheld]
      cases kind <;> cases exact <;> simp [LinkCount, newInode]
    · rw [if_neg (by simpa using Ne.symm heq), Nat.add_zero]
      exact h.links i x hx
  · rcases of_lookup_insert hx with ⟨-, rfl⟩ | ⟨-, hx⟩
    · cases kind <;> simp [newInode] at hx' ⊢
    · exact h.nlink_pos i x hx hx'

theorem nodup_names_of_subperm {copy : DirectoryObject} (hcopy : copy.Subperm dir)
    (hdir : (dir.map (·.name)).Nodup) : (copy.map (·.name)).Nodup := by
  obtain ⟨l, hperm, hsub⟩ := hcopy
  exact ((hperm.map _).nodup_iff).1 (hdir.sublist (hsub.map _))

/-- Copies of the directories that miss some entries are covered by the link counts. -/
theorem Consistent.restrict {copies : Ino → Option DirectoryObject}
    (h : Consistent false [] inodes dirs)
    (hsome : ∀ d dir, dirs d = some dir → ∃ copy, copies d = some copy ∧ copy.Subperm dir)
    (hnone : ∀ d, dirs d = none → copies d = none) : Consistent false [] inodes copies := by
  have hcopy : ∀ d copy, copies d = some copy → ∃ dir, dirs d = some dir ∧ copy.Subperm dir := by
    intro d _ hd
    cases hdir : dirs d with
    | none => simp [hnone d hdir] at hd
    | some dir =>
      obtain ⟨_, hd', hsub⟩ := hsome d dir hdir
      cases hd.symm.trans hd'
      exact ⟨dir, rfl, hsub⟩
  have hnames : NamesUnique copies := by
    intro d copy hd
    obtain ⟨dir, hdir, hsub⟩ := hcopy d copy hd
    exact nodup_names_of_subperm hsub (h.names d dir hdir)
  have hentry : ∀ place e, entryAt copies place = some e → entryAt dirs place = some e := by
    rintro ⟨d, _⟩ e he
    obtain ⟨copy, hd, hmem, hname⟩ := (entryAt_eq_some hnames).1 he
    obtain ⟨dir, hdir, hsub⟩ := hcopy d copy hd
    exact (entryAt_eq_some h.names).2 ⟨dir, hdir, hsub.subset hmem, hname⟩
  refine ⟨hnames, fun d ↦ ?_, fun place e he ↦ h.entry place e (hentry place e he), h.heldEntry,
    fun i inode hinode ↦ ?_, h.nlink_pos⟩
  · rw [← h.directory d]
    cases hdir : dirs d with
    | none => simp [hnone d hdir]
    | some dir =>
      obtain ⟨_, hd, _⟩ := hsome d dir hdir
      simp [hd]
  · have hle := references_mono (·.ino) i h.finite hentry
    have hlinks := h.links i inode hinode
    simp only [LinkCount, Bool.false_eq_true, if_false] at hlinks ⊢
    split_ifs at hlinks ⊢ <;> omega

end Consistency

section Operations

variable {exact : Bool} {held : List DirEntry} {ns ns' ns'' : Namespace} {e : DirEntry}
  {d ino parent newParent : Ino} {name newName : String} {inode : InodeObject}
  {dirs : Ino → Option DirectoryObject} {dir : DirectoryObject}

/-- What is no directory has no entries. -/
theorem Consistent.dirs_eq_none {inodes : Table Ino InodeObject}
    (h : Consistent exact held inodes dirs) (hinode : inodes.lookup d = some inode)
    (hkind : inode.kind ≠ .directory) : dirs d = none := by
  rw [← not_isSome_iff_eq_none, h.directory d]
  rintro ⟨x, hx, hx'⟩
  cases hinode.symm.trans hx
  exact hkind hx'

theorem dirs_releaseInodeRef (h : ns.dirs ino = none) : (ns.releaseInodeRef ino).dirs = ns.dirs := by
  unfold releaseInodeRef
  split
  · rfl
  · split_ifs
    · rfl
    · exact (congrArg (update ns.dirs ino) h.symm).trans (update_eq_self ino ns.dirs)

/-- A held entry of a file is dropped, and the file with its last one. -/
theorem Consistent.releaseInodeRef (h : Consistent exact (e :: held) ns.inodes ns.dirs)
    (hkind : e.kind ≠ .directory) :
    Consistent exact held (ns.releaseInodeRef e.ino).inodes (ns.releaseInodeRef e.ino).dirs := by
  obtain ⟨inode, hinode, hinodeKind⟩ := h.heldEntry e mem_cons_self
  have hfile : inode.kind ≠ .directory := hinodeKind ▸ hkind
  unfold Namespace.releaseInodeRef
  rw [hinode]
  dsimp only
  split_ifs with hpos
  · exact h.dropLink hinode hfile hpos
  · exact h.erase hinode (fun _ ↦ by omega) (.inl (h.dirs_eq_none hinode hfile))

theorem dirs_removeName (h : ns.dirs parent = some dir) (name : String) :
    (ns.removeName parent name).dirs =
      update ns.dirs parent (some (dir.filter (·.name ≠ name))) := by
  simp [removeName, markDirty, h]

theorem isSome_removeName (d : Ino) :
    ((ns.removeName parent name).dirs d).isSome = (ns.dirs d).isSome := by
  by_cases heq : d = parent <;> simp [removeName, markDirty, heq]

theorem entryAt_removeName_of_ne {place : Ino × String} (h : NamesUnique ns.dirs)
    (he : entryAt ns.dirs (parent, name) = some e) (hne : place ≠ (parent, name)) :
    entryAt (ns.removeName parent name).dirs place = entryAt ns.dirs place := by
  obtain ⟨_, hdir⟩ := isSome_iff_exists.1 (isSome_of_entryAt he)
  rw [dirs_removeName hdir, (entryAt_removeName h hdir name).2, update_of_ne hne]

/-- A name is taken out of its directory and held. -/
theorem Consistent.removeName (h : Consistent exact held ns.inodes ns.dirs)
    (he : entryAt ns.dirs (parent, name) = some e) :
    Consistent exact (e :: held) (ns.removeName parent name).inodes
      (ns.removeName parent name).dirs := by
  obtain ⟨_, hdir⟩ := isSome_iff_exists.1 (isSome_of_entryAt he)
  obtain ⟨hnames, hentries⟩ := entryAt_removeName h.names hdir name
  rw [← dirs_removeName hdir] at hnames hentries
  refine ⟨hnames, fun d ↦ ?_, fun place e' he' ↦ ?_, ?_, fun i x hx ↦ ?_, h.nlink_pos⟩
  · rw [isSome_removeName]
    exact h.directory d
  · rw [hentries] at he'
    rcases of_update he' with ⟨-, ⟨⟩⟩ | ⟨-, he'⟩
    exact h.entry place e' he'
  · exact forall_mem_cons.2 ⟨h.entry _ e he, h.heldEntry⟩
  · have hcount := references_update_none (·.ino) i h.finite he
    have hlinks := h.links i x hx
    rw [hentries, countP_cons]
    simp only [decide_eq_true_eq]
    rw [← hcount] at hlinks
    rwa [Nat.add_comm (held.countP _), ← Nat.add_assoc]

theorem Consistent.unlink (h : Consistent exact [] ns.inodes ns.dirs)
    (hok : ns.unlink parent name = .ok ns') : Consistent exact [] ns'.inodes ns'.dirs := by
  obtain ⟨_, hentry, hkind, rfl⟩ := unlink_ok hok
  exact (h.removeName hentry).releaseInodeRef hkind

/-- A directory with an entry is not empty. -/
theorem ne_of_entryAt (he : entryAt dirs (parent, name) = some e) (hempty : (dirs d).getD [] = []) :
    parent ≠ d := by
  rintro rfl
  obtain ⟨_, hdir, hfind⟩ := bind_eq_some_iff.1 he
  rw [hdir, getD_some] at hempty
  simp [hempty] at hfind

/-- Taking a name out does not touch a directory without entries. -/
theorem dirs_removeName_of_empty (he : entryAt ns.dirs (parent, name) = some e)
    (hempty : (ns.dirs d).getD [] = []) : (ns.removeName parent name).dirs d = ns.dirs d := by
  obtain ⟨_, hdir⟩ := isSome_iff_exists.1 (isSome_of_entryAt he)
  rw [dirs_removeName hdir, update_of_ne (ne_of_entryAt he hempty).symm]

/-- A replaced directory is empty still when its name is gone. -/
theorem Consistent.replaced_empty (h : Consistent exact held ns.inodes ns.dirs)
    (he : entryAt ns.dirs (parent, name) = some e) (hkind : e.kind = .directory)
    (hempty : (ns.dirs e.ino).getD [] = []) : (ns.removeName parent name).dirs e.ino = some [] := by
  obtain ⟨inode, hinode, hinodeKind⟩ := h.entry _ e he
  obtain ⟨_, htarget⟩ := isSome_iff_exists.1
    ((h.directory e.ino).2 ⟨inode, hinode, hinodeKind.trans hkind⟩)
  rw [dirs_removeName_of_empty he hempty, htarget]
  simpa [htarget] using hempty

section

variable (h : Consistent exact [] ns.inodes ns.dirs)

include h

theorem Consistent.rmdir
    (hok : ns.rmdir parent name = .ok ns') : Consistent exact [] ns'.inodes ns'.dirs := by
  obtain ⟨entry, hentry, hkind, hempty, rfl⟩ := rmdir_ok hok
  obtain ⟨_, hinode, hinodeKind⟩ := h.entry _ entry hentry
  refine (h.removeName hentry).erase hinode (fun hne ↦ absurd (hinodeKind.trans hkind) hne) (.inr ?_)
  exact h.replaced_empty hentry hkind (by simp [hempty])

theorem Consistent.link
    (hok : ns.link ino newParent newName = .ok ns') : Consistent exact [] ns'.inodes ns'.dirs := by
  obtain ⟨_, hinode, hkind, hparent, hfree, rfl⟩ := link_ok hok
  exact (h.addLink hinode hkind newName).addEntry hparent hfree

variable {kind : InodeKind} {target : String}

theorem Consistent.createEntry (hfresh : ns.inodes.lookup ns.nextIno = none)
    (hok : ns.createEntry parent name kind target = .ok (ino, ns')) :
    Consistent exact [] ns'.inodes ns'.dirs := by
  obtain ⟨hparent, hfree, rfl, rfl⟩ := createEntry_eq hok
  have hdirs : ns.dirs ns.nextIno = none := by
    rw [← not_isSome_iff_eq_none, h.directory]
    simp [hfresh]
  refine (h.create hfresh name kind target).addEntry ?_ ?_
  · split_ifs
    · by_cases heq : parent = ns.nextIno <;> simp [heq, hparent]
    · exact hparent
  · rw [entryAt_new hdirs]
    exact hfree

end

/-- The replaced destination of a rename is dropped, and its name is free. -/
theorem Consistent.dropReplaced (h : Consistent exact held ns.inodes ns.dirs)
    (hempty : ∀ existing, entryAt ns.dirs (newParent, newName) = some existing →
      existing.kind = .directory → (ns.dirs existing.ino).getD [] = [])
    (hparent : (ns.dirs newParent).isSome) : Consistent exact held
        (ns.dropReplaced newParent newName (entryAt ns.dirs (newParent, newName))).inodes
        (ns.dropReplaced newParent newName (entryAt ns.dirs (newParent, newName))).dirs ∧
      ((ns.dropReplaced newParent newName (entryAt ns.dirs (newParent, newName))).dirs
        newParent).isSome ∧
      entryAt (ns.dropReplaced newParent newName (entryAt ns.dirs (newParent, newName))).dirs
        (newParent, newName) = none := by
  cases hexisting : entryAt ns.dirs (newParent, newName) with
  | none => exact ⟨h, hparent, hexisting⟩
  | some existing =>
    obtain ⟨_, hdir⟩ := isSome_iff_exists.1 hparent
    have hremoved := dirs_removeName hdir newName
    have hheld := h.removeName hexisting
    have hentries : entryAt (ns.removeName newParent newName).dirs (newParent, newName) = none := by
      rw [hremoved, (entryAt_removeName h.names hdir newName).2]
      exact update_self _ _ _
    obtain ⟨_, hinode, hinodeKind⟩ := h.entry _ existing hexisting
    unfold Namespace.dropReplaced
    dsimp only
    split_ifs with hkind
    · -- an empty directory, which is not the one it is named in
      have hnil := h.replaced_empty hexisting hkind (hempty existing hexisting hkind)
      have hne := ne_of_entryAt hexisting (hempty existing hexisting hkind)
      refine ⟨?_, ?_, ?_⟩
      · exact hheld.erase hinode (fun hfile ↦ absurd (hinodeKind.trans hkind) hfile) (.inr hnil)
      · simp [remove, hremoved, hne]
      · exact (congrFun (entryAt_erase (.inr hnil)) _).trans hentries
    · have hnone := hheld.dirs_eq_none hinode (hinodeKind ▸ hkind)
      refine ⟨hheld.releaseInodeRef hkind, ?_, ?_⟩
      · simp [dirs_releaseInodeRef hnone, hremoved]
      · rw [dirs_releaseInodeRef hnone, hentries]

/-- The destination that a rename replaces is empty still when the source's name is gone. -/
theorem replaced_empty_of_removeName (hsource : entryAt ns.dirs (parent, name) = some e)
    (hentry : entryAt (ns.removeName parent name).dirs (newParent, newName) =
      entryAt ns.dirs (newParent, newName))
    (hempty : ∀ existing, entryAt ns.dirs (newParent, newName) = some existing →
      existing.kind = .directory → (ns.dirs existing.ino).getD [] = []) (existing : DirEntry)
    (he : entryAt (ns.removeName parent name).dirs (newParent, newName) = some existing)
    (hkind : existing.kind = .directory) :
    ((ns.removeName parent name).dirs existing.ino).getD [] = [] := by
  have hnil := hempty existing (hentry ▸ he) hkind
  rw [dirs_removeName_of_empty hsource hnil]
  exact hnil

variable {noReplace : Bool}

theorem Consistent.rename (h : Consistent exact [] ns.inodes ns.dirs)
    (hok : ns.rename parent name newParent newName noReplace = .ok ns') :
    Consistent exact [] ns'.inodes ns'.dirs := by
  obtain ⟨_, hsource, hparent, rfl | ⟨hne, _, hempty, rfl⟩⟩ := rename_ok hok
  · exact h
  · have hentry := entryAt_removeName_of_ne h.names hsource hne
    have hparent' : ((ns.removeName parent name).dirs newParent).isSome :=
      (isSome_removeName newParent).trans hparent
    obtain ⟨hdrop, hsome, hfree⟩ := (h.removeName hsource).dropReplaced
      (replaced_empty_of_removeName hsource hentry hempty) hparent'
    rw [hentry] at hdrop hsome hfree
    exact hdrop.addEntry hsome hfree

theorem dirs_create (h : create.dirs d = some dir) : d = rootDirIno ∧ dir = [] := by
  by_cases heq : d = rootDirIno
  · exact ⟨heq, by simpa [create, heq, eq_comm] using h⟩
  · simp [create, heq] at h

theorem entryAt_create (place : Ino × String) : entryAt create.dirs place = none := by
  cases hdir : create.dirs place.1 with
  | none => simp [entryAt, hdir]
  | some => simp [entryAt, hdir, (dirs_create hdir).2]

theorem references_create (i : Ino) : references (entryAt create.dirs) (·.ino) i = 0 := by
  refine references_eq_zero ?_ fun _ e he ↦ by simp [entryAt_create] at he
  simp [entryAt_create]

theorem lookup_create (h : create.inodes.lookup ino = some inode) :
    ino = rootDirIno ∧ inode.kind = .directory := by
  simp only [create, lookup_insert_eq, lookup_empty] at h
  split_ifs at h with heq
  cases h
  exact ⟨heq, rfl⟩

theorem consistent_create (exact : Bool) : Consistent exact [] create.inodes create.dirs := by
  refine ⟨fun d dir hd ↦ ?_, fun d ↦ ⟨fun hd ↦ ?_, ?_⟩, fun _ e he ↦ ?_, by simp,
    fun i inode hi ↦ ?_, fun i inode hi hkind ↦ ?_⟩
  · simp [(dirs_create hd).2]
  · obtain ⟨_, hdir⟩ := isSome_iff_exists.1 hd
    obtain ⟨rfl, _⟩ := dirs_create hdir
    exact ⟨_, AList.lookup_insert _, rfl⟩
  · rintro ⟨_, hi, _⟩
    obtain ⟨rfl, _⟩ := lookup_create hi
    rfl
  · simp [entryAt_create] at he
  · rw [LinkCount, if_pos (lookup_create hi).2, references_create]
    simp
  · exact absurd (lookup_create hi).2 hkind

/-- A directory that changed is dirty, and a dirty directory that stays is dirty still. -/
structure Marks (ns ns' : Namespace) : Prop where
  dirs : ∀ d dir, ns'.dirs d = some dir → d ∈ ns'.dirtyInodes ∨ ns.dirs d = some dir
  dirty : ∀ d ∈ ns.dirtyInodes, (ns'.dirs d).isSome → d ∈ ns'.dirtyInodes

theorem Marks.refl (ns : Namespace) : ns.Marks ns :=
  ⟨fun _ _ hd ↦ .inr hd, fun _ hd _ ↦ hd⟩

theorem Marks.trans (h : ns.Marks ns') (h' : ns'.Marks ns'') : ns.Marks ns'' := by
  have hdirty : ∀ d ∈ ns'.dirtyInodes, (ns''.dirs d).isSome → d ∈ ns''.dirtyInodes := h'.dirty
  refine ⟨fun d dir hd ↦ ?_, fun d hd hsome ↦ ?_⟩
  · rcases h'.dirs d dir hd with hmem | hd'
    · exact .inl hmem
    · exact (h.dirs d dir hd').imp_left fun hmem ↦ hdirty d hmem (by simp [hd])
  · obtain ⟨dir, hdir⟩ := isSome_iff_exists.1 hsome
    rcases h'.dirs d dir hdir with hmem | hd'
    · exact hmem
    · exact hdirty d (h.dirty d hd (by simp [hd'])) hsome

/-- The directories change in one place, which is marked. -/
theorem Marks.of_update (parent : Ino) {dir : Option DirectoryObject}
    (hdirs : ns'.dirs = update ns.dirs parent dir) (hparent : parent ∈ ns'.dirtyInodes)
    (hdirty : ∀ d ∈ ns.dirtyInodes, d ∈ ns'.dirtyInodes) : ns.Marks ns' := by
  refine ⟨fun d _ hd ↦ ?_, fun d hd _ ↦ hdirty d hd⟩
  by_cases heq : d = parent
  · exact .inl (heq ▸ hparent)
  · exact .inr (by simpa [hdirs, heq] using hd)

namespace Marks

theorem removeName (ns : Namespace) (parent : Ino) (name : String) :
    ns.Marks (ns.removeName parent name) :=
  .of_update parent rfl (mem_markDirty_self _) fun _ hd ↦ mem_markDirty hd

theorem remove (ns : Namespace) (ino : Ino) : ns.Marks (ns.remove ino) := by
  have hne : ∀ d, ((ns.remove ino).dirs d).isSome → d ≠ ino := by
    rintro d hsome rfl
    simp [Namespace.remove] at hsome
  refine ⟨fun d _ hd ↦ .inr ?_, fun d hd hsome ↦ ?_⟩
  · have := hne d (by simp [hd])
    simpa [Namespace.remove, this] using hd
  · exact mem_filter.2 ⟨hd, by simpa using hne d hsome⟩

theorem of_edited (h : ns.Edited ns') : ns.Marks ns' := by
  induction h with
  | refl => exact .refl ns
  | mark _ _ ih => exact ih.trans ⟨fun _ _ hd ↦ .inr hd, fun _ hd _ ↦ mem_markDirty hd⟩
  | setLinks _ _ _ ih => exact ih.trans ⟨fun _ _ hd ↦ .inr hd, fun _ hd _ ↦ hd⟩
  | removeName _ parent name ih => exact ih.trans (.removeName _ parent name)
  | remove _ ino ih => exact ih.trans (.remove _ ino)
  | enter _ parent _ hmarked hdirty ih => exact ih.trans (.of_update parent rfl hmarked hdirty)

theorem createEntry (h : ns.createEntry parent name kind target = .ok (ino, ns')) :
    ns.Marks ns' := by
  obtain ⟨_, _, rfl, rfl⟩ := createEntry_eq h
  refine ⟨fun d _ hd ↦ ?_, fun d hd _ ↦ mem_markDirty (mem_markDirty hd)⟩
  by_cases hparent : d = parent
  · exact .inl (hparent ▸ mem_markDirty (mem_markDirty_self _))
  · by_cases hnew : d = ns.nextIno
    · exact .inl (hnew ▸ mem_markDirty_self _)
    · right
      simp only [markDirty, addEntry, update_of_ne hparent] at hd
      split_ifs at hd
      · simpa [hnew] using hd
      · exact hd

end Marks

end Operations

section Listed

variable {ns ns' : Namespace} {ino parent newParent : Ino} {name newName : String}

/-- Every directory has a list of entries. -/
def DirectoriesListed (ns : Namespace) : Prop :=
  ∀ d inode, ns.inodes.lookup d = some inode → inode.kind = .directory → (ns.dirs d).isSome

section

variable (h : ns.DirectoriesListed)

include h

namespace DirectoriesListed

theorem remove (ino : Ino) : (ns.remove ino).DirectoriesListed := by
  intro d inode hd hkind
  obtain ⟨heq, hd⟩ := of_lookup_erase hd
  simpa [Namespace.remove, heq] using h d inode hd hkind

theorem insertLink {inode : InodeObject}
    (hinode : ns.inodes.lookup ino = some inode) (nlink : Nat) :
    { ns with inodes := ns.inodes.insert ino { inode with nlink := nlink } }.DirectoriesListed := by
  intro d x hd hkind
  rcases of_lookup_insert hd with ⟨rfl, rfl⟩ | ⟨-, hd⟩
  · exact h d inode hinode hkind
  · exact h d x hd hkind

theorem removeName (parent : Ino) (name : String) :
    (ns.removeName parent name).DirectoriesListed := by
  intro d inode hd hkind
  rw [isSome_removeName]
  exact h d inode hd hkind

theorem addEntry (parent : Ino) (e : DirEntry) : (ns.addEntry parent e).DirectoriesListed := by
  intro d inode hd hkind
  by_cases heq : d = parent
  · simp [Namespace.addEntry, heq]
  · simpa [Namespace.addEntry, heq] using h d inode hd hkind

theorem edited (hedited : ns.Edited ns') : ns'.DirectoriesListed := by
  induction hedited with
  | refl => exact h
  | mark _ _ ih => exact ih
  | setLinks _ hinode nlink ih => exact ih.insertLink hinode nlink
  | removeName _ parent name ih => exact ih.removeName parent name
  | remove _ ino ih => exact ih.remove ino
  | enter _ parent e _ _ ih => exact ih.addEntry parent e

theorem createEntry (hok : ns.createEntry parent name kind target = .ok (ino, ns')) :
    ns'.DirectoriesListed := by
  obtain ⟨_, _, rfl, rfl⟩ := createEntry_eq hok
  have hnew : DirectoriesListed { ns with
      nextIno := ns.nextIno + 1
      inodes := ns.inodes.insert ns.nextIno (newInode kind target)
      dirs := if kind = InodeKind.directory then update ns.dirs ns.nextIno (some [])
        else ns.dirs
      parents := update ns.parents ns.nextIno (some parent) } := by
    intro d inode hd hkind
    rcases of_lookup_insert hd with ⟨heq, rfl⟩ | ⟨heq, hd⟩
    · have hdir : kind = .directory := by cases kind <;> simp [newInode] at hkind ⊢
      simp [hdir, heq]
    · have hold := h d inode hd hkind
      dsimp only
      split_ifs <;> simp [heq, hold]
  exact hnew.addEntry parent _

end DirectoriesListed

end

end Listed

section Counting

/-- How many directory entries name an inode. -/
def linkCount (ns : Namespace) (ino : Ino) : Nat :=
  (ns.inodes.toList.flatMap fun entry ↦ (ns.dirs entry.1).getD []).countP (·.ino = ino)

/-- The places of all entries. -/
def places (ns : Namespace) : List (Ino × DirEntry) :=
  ns.inodes.toList.flatMap fun entry ↦ ((ns.dirs entry.1).getD []).map fun e ↦ (entry.1, e)

variable {exact : Bool} {held : List DirEntry} {ns : Namespace} {d ino : Ino} {e : DirEntry}

theorem linkCount_eq_countP_places (ns : Namespace) (ino : Ino) :
    ns.linkCount ino = ns.places.countP (·.2.ino = ino) := by
  simp only [linkCount, places, countP_flatMap, comp_def, countP_map]

section

variable (h : Consistent exact held ns.inodes ns.dirs)

include h

theorem mem_places : (d, e) ∈ ns.places ↔ entryAt ns.dirs (d, e.name) = some e := by
  rw [entryAt_eq_some h.names]
  simp only [places, List.mem_flatMap, List.mem_map, Prod.mk.injEq]
  constructor
  · rintro ⟨⟨d', _⟩, _, _, he', rfl, rfl⟩
    cases hdir : ns.dirs d' with
    | none => simp [hdir] at he'
    | some dir => exact ⟨dir, rfl, by simpa [hdir] using he', trivial⟩
  · rintro ⟨_, hdir, hmem, _⟩
    obtain ⟨inode, hinode, _⟩ := (h.directory d).1 (by simp [hdir])
    exact ⟨(d, inode), Table.mem_toList.2 hinode, e, by simpa [hdir] using hmem, rfl, rfl⟩

theorem nodup_places : (ns.places.map fun place ↦ (place.1, place.2.name)).Nodup := by
  have hkeys : ns.inodes.toList.Pairwise fun a b ↦ a.1 ≠ b.1 := by
    have := ns.inodes.nodupKeys
    rw [List.NodupKeys, List.keys, List.Nodup, List.pairwise_map] at this
    exact List.pairwise_map.2 this
  simp only [places, List.map_flatMap, List.map_map]
  rw [List.nodup_flatMap]
  refine ⟨fun entry _ ↦ ?_, hkeys.imp fun {a b} hne ↦ ?_⟩
  · cases hdir : ns.dirs entry.1 with
    | none => simp
    | some dir =>
      have hnames : dir.Pairwise fun a b ↦ a.name ≠ b.name := List.pairwise_map.1 (h.names _ dir hdir)
      exact List.pairwise_map.2 (hnames.imp fun hne heq ↦ hne (Prod.mk.inj heq).2)
  · intro _ ha hb
    simp only [List.mem_map] at ha hb
    obtain ⟨_, _, rfl⟩ := ha
    obtain ⟨_, _, heq⟩ := hb
    exact hne (Prod.mk.inj heq).1.symm

/-- The executable count is the number of places that refer to the inode. -/
theorem linkCount_eq_references (ino : Ino) :
    ns.linkCount ino = references (entryAt ns.dirs) (·.ino) ino := by
  let named := (ns.places.filter (·.2.ino = ino)).map fun place ↦ (place.1, place.2.name)
  have hnodup : named.Nodup := (nodup_places h).sublist (List.filter_sublist.map _)
  have hset : referrers (entryAt ns.dirs) (·.ino) ino = (named.toFinset : Set (Ino × String)) := by
    ext ⟨d, name⟩
    simp only [Finset.mem_coe, List.mem_toFinset, named, List.mem_map, List.mem_filter,
      decide_eq_true_eq, Prod.mk.injEq]
    constructor
    · rintro ⟨e, he, hi⟩
      obtain rfl := ((entryAt_eq_some h.names).1 he).choose_spec.2.2
      exact ⟨(d, e), ⟨(mem_places h).2 he, hi⟩, rfl, rfl⟩
    · rintro ⟨⟨_, e⟩, ⟨hmem, hi⟩, rfl, rfl⟩
      exact ⟨e, (mem_places h).1 hmem, hi⟩
  rw [references, hset, Set.ncard_coe_finset, List.toFinset_card_of_nodup hnodup, List.length_map,
    ← List.countP_eq_length_filter, linkCount_eq_countP_places]

end

end Counting

end Namespace

end Lchfs.Store
