import Lchfs.File.Readers

/-!
# Reads that overlap appends

An append moves bytes from the pending buffer to the chunk list while reads go on. What a read has
found so far determines a range of bytes it can still return, and these begin with the bytes
acknowledged before each append that the read overlaps: the copy of a session keeps showing them
whatever the size becomes, and the working state and the content fall back on them.
-/

namespace Lchfs.File

open Lchfs.Format (Bytes ChunkRef)
open Lchfs.Library
open Lchfs.Library.Layout
open List hiding range
open Lchfs.Store (FileWorkingState IncrementalWriteState)
open State Option

variable {chunks : List ChunkRef} {bytes pending : Bytes} {size : Nat} {a : Action}
  {phase : ReadPhase} {buf : Bytes} {len i : Nat}

/-! ## What the copy of a session shows -/

/-- The copy of a session is read as these bytes, with the size as it is and, if nothing is
pending, with any larger size. -/
def Shows (chunks : List ChunkRef) (pending : Bytes) (size : Nat) (bytes : Bytes) : Prop :=
  bytes <+: assembleSessionContents chunks pending size ∧
    (pending = [] → ∀ larger, size ≤ larger → bytes <+: assembleSessionContents chunks [] larger)

theorem Shows.mono {fewer : Bytes}
    (h : Shows chunks pending size bytes) (hfewer : fewer <+: bytes) : Shows chunks pending size fewer :=
  ⟨hfewer.trans h.1, fun hnil larger hle ↦ hfewer.trans (h.2 hnil larger hle)⟩

theorem Shows.grow {larger : Nat}
    (h : Shows chunks [] size bytes) (hle : size ≤ larger) : Shows chunks [] larger bytes :=
  ⟨h.2 rfl larger hle, fun _ _ hle' ↦ h.2 rfl _ (Nat.le_trans hle hle')⟩

theorem Lists.assemble_nil (h : Lists chunks bytes)
    (hsize : bytes.length ≤ size) : bytes <+: assembleSessionContents chunks [] size := by
  have htotal : max size (chunksEnd chunks + ([] : Bytes).length) = bytes.length + (size - bytes.length) := by
    have hstop := h.stop
    rw [length_nil]
    omega
  simp only [assembleSessionContents, htotal, copyInto_nil, h.place_add]
  exact prefix_append _ _

/-- A chunk list that goes up to the pending bytes shows them in their place, also while the size
lags behind. -/
theorem Lists.assemble_ahead (h : Lists chunks bytes)
    (hreach : chunksEnd chunks = bytes.length) (hsize : size ≤ bytes.length + pending.length) :
    assembleSessionContents chunks pending size = bytes ++ pending := by
  have htotal : max size (chunksEnd chunks + pending.length) =
      max (bytes ++ pending).length (chunksEnd chunks + pending.length) := by
    rw [length_append]
    omega
  rw [← h.assemble pending, assembleSessionContents, htotal]
  rfl

/-- A session shows what it holds. -/
theorem Lists.shows {listed : Bytes} (h : Lists chunks listed)
    (hsize : size = bytes.length) (hbytes : bytes <+: listed ++ pending)
    (hreach : chunksEnd chunks = listed.length ∨ bytes = listed ++ pending) : Shows chunks pending size bytes := by
  have hle : bytes.length ≤ (listed ++ pending).length := hbytes.length_le
  rw [length_append] at hle
  refine ⟨?_, fun hnil larger hlarger ↦ ?_⟩
  · rcases hreach with hreach | rfl
    · rw [h.assemble_ahead hreach (by omega)]
      exact hbytes
    · rw [hsize, h.assemble _]
  · subst hnil
    rw [append_nil] at hbytes
    by_cases hlisted : listed.length ≤ larger
    · exact hbytes.trans (h.assemble_nil hlisted)
    · have hreach : chunksEnd chunks = listed.length := by
        rcases hreach with hreach | rfl
        · exact hreach
        · simp only [append_nil] at hsize
          omega
      rw [h.assemble_ahead hreach (by simpa using Nat.le_of_not_le hlisted), append_nil]
      exact hbytes

theorem chunksEnd_append_refsOf {start : Nat} {pieces : List Bytes} (h : chunksEnd chunks = start) :
    chunksEnd (chunks ++ refsOf (offsets start pieces)) = start + pieces.flatten.length := by
  induction pieces generalizing chunks start with
  | nil => simpa [refsOf, offsets] using h
  | cons piece _ ih =>
    have hfirst : chunksEnd (chunks ++ [⟨piece, start, piece.length⟩]) = start + piece.length := by
      rw [chunksEnd_append, h]
      simp [chunksEnd]
    have hrest := ih hfirst
    rw [append_assoc] at hrest
    simp only [offsets, refsOf, map_cons, flatten_cons, length_append, ← Nat.add_assoc]
    exact hrest

namespace State

variable {params : Params} {s t : State}
variable {fewer : Bytes} {offset : Nat} {session : IncrementalWriteState}

/-! ## What a read can still return -/

/-- The content is read as these bytes. -/
def Loads (params : Params) (s : State) (bytes : Bytes) : Prop :=
  ∃ held, bytes <+: held ∧ held.length ≤ s.size ∧ s.content.Holds params s.lists held

/-- Without a session, the file is read as these bytes. -/
def Falls (params : Params) (s : State) (bytes : Bytes) : Prop :=
  match s.working with
  | some state => bytes <+: state.contents
  | none => s.Loads params bytes

/-- A read that has come so far will see these bytes. -/
def Sees (params : Params) (s : State) (bytes : Bytes) : ReadPhase → Prop
  | .started => True
  | .session chunks pending => Shows chunks pending s.size bytes
  | .noSession => s.Falls params bytes
  | .noState => s.Loads params bytes

theorem Loads.mono (h : s.Loads params bytes) (hfewer : fewer <+: bytes) : s.Loads params fewer := by
  obtain ⟨held, hbelow, hsize, hholds⟩ := h
  exact ⟨held, hfewer.trans hbelow, hsize, hholds⟩

theorem Falls.mono (h : s.Falls params bytes) (hfewer : fewer <+: bytes) : s.Falls params fewer := by
  unfold Falls at h ⊢
  split at h
  · exact hfewer.trans h
  · exact h.mono hfewer

theorem Loads.of_holds (hsize : s.size = s.acked.length) (h : s.content.Holds params s.lists s.acked) :
    s.Loads params s.acked :=
  ⟨s.acked, prefix_rfl, Nat.le_of_eq hsize.symm, h⟩

/-- A read that finds no session. -/
theorem Stable.falls (h : s.Stable params) (hfailed : s.failed = none) (hsession : s.session = none) :
    s.Falls params s.acked := by
  unfold Falls
  split
  next state hworking =>
    rw [(h.working hsession state hworking).1, expected_eq hfailed]
  next hworking => exact .of_holds h.size (h.content hsession hworking).2

/-- A read of the content. -/
theorem Loads.readContent (h : s.Loads params bytes) (offset len : Nat) :
    ∃ held, bytes <+: held ∧ s.readContent offset len = some (sliceOf held offset len) := by
  obtain ⟨held, hbelow, hsize, hencodes, hlists⟩ := h
  unfold State.readContent
  split
  next inlined hcontent =>
    rw [hcontent] at hencodes
    exact ⟨inlined, hencodes.1 ▸ hbelow, rfl⟩
  next hash hcontent =>
    rw [hcontent] at hencodes
    have hlisted : Lists hash held := hencodes
    have hplace := hlisted.place_add (n := s.size - held.length)
    rw [Nat.add_sub_of_le hsize] at hplace
    refine ⟨held ++ zeros (s.size - held.length), hbelow.trans (prefix_append _ _), ?_⟩
    rw [if_pos (hlists hash hcontent), hlisted.sorted.readRangeFromChunks_eq, hplace]

/-! ## What a step of the file does to the reads -/

/-- Between requests. -/
def Quiet (s : State) : Prop :=
  s.appends = false ∧ s.rewrites = false

/-- Nothing changes that a read looks at once it has found no session. -/
structure Unseen (s t : State) : Prop where
  size : t.size = s.size
  working : t.working = s.working
  content : t.content = s.content
  lists : t.lists = s.lists
  acked : t.acked = s.acked

/-- What one step of the file does to the reads under way. -/
inductive Moves (params : Params) (s : State) (a : Action) (t : State) : Prop
  | unseen (hunseen : s.Unseen t) (happends : t.appends = s.appends) (hrewrites : t.rewrites = s.rewrites)
    (hack : s.acknowledges t = false)
  /-- An append begins. -/
  | opened {offset : Nat} {buf : Bytes} {session : IncrementalWriteState} (ha : a = .request (.write offset buf))
    (hsession : s.Appends params offset session) (hunseen : s.Unseen t) (hs : s.Quiet)
    (happends : t.appends = true) (hrewrites : t.rewrites = false) (hack : s.acknowledges t = false)
  /-- A request on the whole-file path begins, or goes on. -/
  | rewriting (hs : s.rewrites = true ∨ ∃ request, a = .request request ∧ s.TakesWholeFile params request)
    (happends : t.appends = false) (hrewrites : t.rewrites = true)
  /-- An append stores the new size. -/
  | appended {newSize : Nat} (ha : a = .advance) (hop : s.op = some (.touching newSize)) (hsession : s.session.isSome)
    (ht : t.Quiet) (hack : s.acknowledges t = true) (hbelow : s.acked <+: t.acked)
    (hsize : s.size ≤ t.size) (hworking : t.working = s.working) (hcontent : t.content = s.content)
    (hlists : t.lists = s.lists)
  /-- A request on the whole-file path stores the new size. -/
  | rewritten (hs : s.rewrites = true) (ht : t.Quiet) (hack : s.acknowledges t = true)
  /-- The acknowledged bytes are put somewhere else. -/
  | refreshed (hs : s.Quiet) (ht : t.Quiet) (hack : s.acknowledges t = false) (hsize : t.size = s.size)
    (hacked : t.acked = s.acked)
    (hfalls : ∀ bytes, bytes <+: s.acked → s.Falls params bytes → t.Falls params bytes)
    (hloads : (a = .advance ∧ ∃ sessionChunks content, s.op = some (.publishing sessionChunks content)) ∨
      ∀ bytes, bytes <+: s.acked → s.Loads params bytes → t.Loads params bytes)

/-- Bytes that a read sees stay in sight. A copy with bytes pending is read up to the size. -/
theorem Sees.grow (h : s.Sees params bytes phase)
    (hsession : ∀ chunks pending, phase = .session chunks pending → t.size = s.size ∨ pending = [])
    (hsize : s.size ≤ t.size) (hworking : t.working = s.working) (hcontent : t.content = s.content)
    (hlists : t.lists = s.lists) : t.Sees params bytes phase := by
  have hloads (hs : s.Loads params bytes) : t.Loads params bytes := by
    obtain ⟨held, hbelow, hheld, hholds⟩ := hs
    refine ⟨held, hbelow, Nat.le_trans hheld hsize, ?_⟩
    rw [hcontent, hlists]
    exact hholds
  cases phase with
  | started => trivial
  | session chunks pending =>
    rcases hsession chunks pending rfl with heq | rfl
    · rwa [Sees, heq]
    · exact Shows.grow h hsize
  | noSession =>
    simp only [Sees, Falls, hworking] at h ⊢
    split at h
    · exact h
    · exact hloads h
  | noState => exact hloads h

theorem Unseen.sees (h : s.Unseen t) (hsees : s.Sees params bytes phase) : t.Sees params bytes phase :=
  hsees.grow (fun _ _ _ ↦ .inl h.size) (Nat.le_of_eq h.size.symm) h.working h.content h.lists

/-- The file holds its bytes unless a request is under way. -/
theorem Holds.stable (h : s.Holds params) (hquiet : s.Quiet) : s.Stable params := by
  obtain ⟨happends, hrewrites⟩ := hquiet
  unfold Holds at h
  split at h
  · exact h
  next op hop =>
    cases op with
    | appending => simp [appends, hop] at happends
    | rechunking => simp [rewrites, hop] at hrewrites
    | touching =>
      simp only [appends, rewrites, hop] at happends hrewrites
      cases hsession : s.session <;> simp [hsession] at happends hrewrites
    | fsyncing => exact h.1
    | capturing => exact h.1
    | publishing => exact h.1
    | fsynced => exact h.1
    | dropping => exact h.1
    | closing => exact h.1

/-- While no request fails and no refusal finds pending bytes, a file reads between two requests as the
byte array they make, also amid an fsync or a capture. -/
theorem file_refines_bytes (hs : (file params).ReachableUnder (KeepsClean params) s) (hquiet : s.Quiet) :
    s.size = s.acked.length ∧ ∀ offset len, s.read offset len = some (sliceOf s.acked offset len) := by
  have hclean : s.Clean params := clean_of_reachable (fun _ _ h ↦ h) hs
  have hstable : s.Stable params := hclean.1.stable hquiet
  refine ⟨hstable.size, fun offset len ↦ ?_⟩
  rw [hstable.read, expected_eq hclean.2]

theorem file_refines_bytes_captured : ∃ s, (file pairs).ReachableUnder (KeepsClean pairs) s ∧ s.op.isSome ∧
    s.read 0 4 = some [1, 2, 3] := by
  obtain ⟨s, hs, hop, happends, hrewrites, hacked⟩ : ∃ s, (file pairs).ReachableUnder (KeepsClean pairs) s ∧
      s.op.isSome ∧ s.appends = false ∧ s.rewrites = false ∧ s.acked = [1, 2, 3] :=
    Machine.exists_of_run created_loaded (writeRun 0 [1, 2] ++ writeRun 2 [3] ++ [.beginFsync, .advance])
      (by decide +kernel)
  refine ⟨s, hs, hop, ?_⟩
  rw [(file_refines_bytes hs ⟨happends, hrewrites⟩).2, hacked]
  rfl

/-- Past the data barrier of an fsync, reads fall back on the acknowledged bytes, session or not. -/
theorem Stable.falls_hydrated (h : s.Stable params) (hfailed : s.failed = none) (hhydrated : s.Hydrated params) :
    s.Falls params s.acked := by
  cases hsession : s.session with
  | none => exact h.falls hfailed hsession
  | some =>
    obtain ⟨_, hworking, hholds⟩ := hhydrated (by simp [hsession])
    unfold Falls
    simp only [hworking, hholds.contents]
    exact prefix_rfl

theorem Stable.session_of_appends (h : s.Stable params)
    (happends : s.Appends params offset session) : s.session = none ∨ s.continues offset = true := by
  cases happends with
  | continued hsession hnext => exact .inr (by simp [continues, hsession, hnext])
  | @fresh _ hother heligible =>
    obtain ⟨hoffset, -⟩ : offset = s.size ∧ params.inlineThreshold < s.size := by
      simpa [freshSessionEligible] using heligible
    cases hs : s.session with
    | none => exact .inl rfl
    | some session =>
      exact absurd ((h.session session hs).2.next.trans h.size.symm) (hoffset ▸ hother session hs)

theorem appends_of_rewrites (h : s.rewrites = true) : s.appends = false := by
  unfold rewrites at h
  split at h
  next hop => simp [appends, hop]
  next hop => simpa [appends, hop] using h
  · simp at h

theorem quiet_of_op (hop : s.op = none) : s.Quiet := by
  simp [Quiet, appends, rewrites, hop]

theorem acknowledges_of_op (hop : s.op = none) : s.acknowledges t = false := by
  simp [acknowledges, hop]

theorem Unseen.refl (s : State) : s.Unseen s :=
  ⟨rfl, rfl, rfl, rfl, rfl⟩

theorem Moves.of_same_op (hunseen : s.Unseen t) (hop : t.op = s.op)
    (hsession : t.session = s.session) : s.Moves params a t := by
  refine .unseen hunseen (by simp only [appends, hop, hsession]) (by simp only [rewrites, hop, hsession]) ?_
  simp only [acknowledges, hop]
  cases s.op <;> simp

theorem Begun.moves {request : Request} (hbegun : s.Begun params request t) (hop : s.op = none)
    (hclean : s.Clean params) (hkeeps : s.KeepsClean params (.request request)) :
    s.Moves params (.request request) t := by
  have hstable : s.Stable params := hclean.1.stable (quiet_of_op hop)
  cases hbegun with
  | unchanged => exact .of_same_op (.refl s) rfl rfl
  | refused hrefuses =>
    have hmaterialize := hstable.materialize (hkeeps hrefuses)
    obtain ⟨_, heq⟩ := materialize_eq (s := s)
    rw [heq] at hmaterialize ⊢
    refine .refreshed (quiet_of_op hop) (quiet_of_op hop) (acknowledges_of_op hop) rfl rfl (fun _ hbelow _ ↦ ?_)
      (.inr fun _ _ h ↦ h)
    exact (hmaterialize.falls hclean.2 rfl).mono hbelow
  | append hrequest happends working hworking =>
    have hsame : working = s.working := hworking (hstable.session_of_appends happends)
    exact .opened (congrArg Action.request hrequest) happends ⟨rfl, hsame, rfl, rfl, rfl⟩ (quiet_of_op hop) rfl rfl
      (acknowledges_of_op hop)
  | rechunk _ hwhole => exact .rewriting (.inr ⟨request, rfl, hwhole⟩) rfl rfl

/-- The state that a capture leaves. -/
theorem Stable.capture_moves (h : s.Stable params) (hfailed : s.failed = none)
    {sessionChunks : Option (List ChunkRef)} (hop : s.op = some (.capturing sessionChunks))
    (hchunks : sessionChunks = s.finalizeIncrementalSession) : s.Moves params .advance
      { (if sessionChunks.isSome ∨ s.working.isSome then s.putContent (s.contentRef params sessionChunks)
          else s) with op := some (.dropping sessionChunks.isSome) } := by
  have hquiet : s.Quiet := by simp [Quiet, State.appends, State.rewrites, hop]
  have hack (u : State) : s.acknowledges u = false := by simp [acknowledges, hop]
  obtain ⟨content, lists, heq, hholds⟩ := h.capture hfailed hchunks
  rw [heq]
  have hloads : Loads params
      { s with content := content, lists := lists, op := some (.dropping sessionChunks.isSome) } s.acked :=
    ⟨s.acked, prefix_rfl, Nat.le_of_eq h.size.symm, hholds⟩
  refine .refreshed hquiet ⟨rfl, rfl⟩ (hack _) rfl rfl (fun bytes hbelow hfalls ↦ ?_)
    (.inr fun _ hbelow _ ↦ hloads.mono hbelow)
  unfold Falls at hfalls ⊢
  split at hfalls
  next hworking => simpa [hworking] using hfalls
  next hworking => simpa [hworking] using hloads.mono hbelow

theorem Clean.advance_moves (h : s.Clean params) (hgrows : s.appends = true → s.acked <+: s.target)
    (hstep : s.advance params = some t) : s.Moves params .advance t := by
  have ht : t.Clean params := h.step (a := .advance) trivial hstep
  have htholds := ht.1
  obtain ⟨op, hop, hstep⟩ := bind_eq_some_iff.1 hstep
  have hholds := h.1
  simp only [Holds, hop] at hholds
  cases op with
  | appending =>
    obtain ⟨_, _, rfl⟩ := map_eq_some_iff.1 hstep
    refine .unseen ⟨rfl, rfl, rfl, rfl, rfl⟩ ?_ ?_ ?_
    · simp [appends, hop]
    · simp [rewrites, hop]
    · simp [acknowledges]
  | rechunking =>
    obtain ⟨_, _, rfl⟩ := map_eq_some_iff.1 hstep
    have hsession : s.session = none := Rechunking.session hholds
    exact .rewriting (.inl (by simp [rewrites, hop])) (by simp [appends, hsession])
      (by simp [rewrites, hsession])
  | touching newSize =>
    cases hstep
    have hack : s.acknowledges { s with
        size := newSize, dirty := true, op := none, acked := s.target, request := none, failed := none,
        history := s.target :: s.history } = true := by
      simp [acknowledges, hop]
    cases hsession : s.session with
    | none => exact .rewritten (by simp [rewrites, hop, hsession]) (quiet_of_op rfl) (hsession ▸ hack)
    | some =>
      have happends : s.appends = true := by simp [appends, hop, hsession]
      have hbelow := hgrows happends
      refine .appended rfl hop (by simp [hsession]) (quiet_of_op rfl) (hsession ▸ hack) hbelow ?_ rfl rfl rfl
      have hle := hbelow.length_le
      rw [← Touching.size hholds, ← Touching.next hholds] at hle
      exact hle
  | fsyncing sessionChunks =>
    have hquiet : s.Quiet := by simp [Quiet, appends, rewrites, hop]
    have hack (u : State) : s.acknowledges u = false := by simp [acknowledges, hop]
    cases sessionChunks with
    | some =>
      cases hstep
      refine .refreshed hquiet ⟨rfl, rfl⟩ (hack _) rfl rfl (fun bytes hbelow _ ↦ ?_) (.inr fun _ _ h ↦ h)
      exact (htholds.1.falls_hydrated ht.2 htholds.2.2.2.1).mono hbelow
    | none =>
      obtain ⟨u, hu, rfl⟩ := map_eq_some_iff.1 hstep
      obtain ⟨_, rfl⟩ := hydrate_eq hu
      refine .refreshed hquiet ⟨rfl, rfl⟩ (hack _) rfl rfl (fun bytes hbelow _ ↦ ?_) (.inr fun _ _ h ↦ h)
      exact (htholds.1.falls_hydrated ht.2 htholds.2.2.2.1).mono hbelow
  | publishing =>
    cases hstep
    refine .refreshed (by simp [Quiet, appends, rewrites, hop]) ⟨rfl, rfl⟩
      (by simp [acknowledges, hop]) rfl rfl (fun bytes hbelow _ ↦ ?_) (.inl ⟨rfl, _, _, hop⟩)
    exact (htholds.1.falls_hydrated ht.2 htholds.2.2).mono hbelow
  | fsynced =>
    cases hstep
    refine .unseen ⟨rfl, rfl, rfl, rfl, rfl⟩ ?_ ?_ ?_
    · simp [appends, hop]
    · simp [rewrites, hop]
    · simp [acknowledges, hop]
  | capturing =>
    cases hstep
    exact Stable.capture_moves hholds.1 h.2 hop hholds.2
  | dropping =>
    obtain ⟨hstable, rfl, hcontent⟩ := hholds
    cases hstep
    refine .refreshed (by simp [Quiet, appends, rewrites, hop]) ⟨rfl, rfl⟩
      (by simp [acknowledges, hop]) rfl rfl (fun _ hbelow hfalls ↦ ?_) (.inr fun _ _ h ↦ h)
    split_ifs with hsession
    · have hloads : s.Loads params s.acked := .of_holds hstable.size (hcontent hsession)
      exact hloads.mono hbelow
    · exact hfalls
  | closing =>
    cases hstep
    refine .unseen ⟨rfl, rfl, rfl, rfl, rfl⟩ ?_ ?_ ?_
    · simp [appends, finishCapture, hop]
    · simp [rewrites, finishCapture, hop]
    · simp [acknowledges, hop]

theorem Clean.moves (h : s.Clean params) (hkeeps : s.KeepsClean params a)
    (hgrows : s.appends = true → s.acked <+: s.target) (hstep : s.step params a = some t) :
    s.Moves params a t := by
  cases steps_of_step hstep with
  | request hstep =>
    have hbegun := begun_of_beginRequest hstep
    simp only [beginRequest] at hstep
    split_ifs at hstep with hinvalid hsome
    · cases hstep
      exact .of_same_op (.refl s) rfl rfl
    · exact hbegun.moves (not_isSome_iff_eq_none.1 hsome) h hkeeps
  | advance hstep => exact h.advance_moves hgrows hstep
  | failAppend hop | failRechunk hop => simpa using hkeeps _ hop
  | failFsync hop | failCapture hop =>
    refine .unseen ⟨rfl, rfl, rfl, rfl, rfl⟩ ?_ ?_ ?_
    · simp [appends, hop]
    · simp [rewrites, hop]
    · simp [acknowledges, hop]
  | fsync hop | capture hop =>
    exact .unseen ⟨rfl, rfl, rfl, rfl, rfl⟩ (quiet_of_op hop).1.symm (quiet_of_op hop).2.symm (acknowledges_of_op hop)
  | setAttr | drain | snapshot | abort => exact .of_same_op ⟨rfl, rfl, rfl, rfl, rfl⟩ rfl rfl

/-! ## What a session shows during an append -/

/-- An append under way: its session shows the acknowledged bytes, and with the chunks that it is
committing its chunk list goes up to the pending bytes. -/
structure Exposes (s : State) : Prop where
  shows : ∀ session ∈ s.session, Shows session.chunks session.pendingBytes s.size s.acked
  reaches : ∀ added refs, s.op = some (.appending added refs) → ∀ session ∈ s.session,
    chunksEnd (session.chunks ++ refs) = session.baseOffset + session.cutOffset
  grows : s.acked <+: s.target

theorem Stable.shows (h : s.Stable params) : ∀ session ∈ s.session,
    Shows session.chunks session.pendingBytes s.size s.acked := by
  intro session hsession
  obtain ⟨_, hlisted, -, hbytes⟩ := (h.session session hsession).2.listed
  exact hlisted.shows h.size (hbytes ▸ prefix_rfl) (.inr hbytes)

theorem Clean.shows (h : s.Clean params) (hexposes : s.appends = true → s.Exposes) : ∀ session ∈ s.session,
    Shows session.chunks session.pendingBytes s.size s.acked := by
  intro session hsession
  by_cases happends : s.appends = true
  · exact (hexposes happends).shows session hsession
  have happends : s.appends = false := Bool.eq_false_iff.2 happends
  by_cases hrewrites : s.rewrites = true
  · -- the whole-file path has no session
    exfalso
    have hholds := h.1
    cases hop : s.op with
    | none => simp [rewrites, hop] at hrewrites
    | some op =>
      simp only [Holds, hop] at hholds
      cases op with
      | rechunking =>
        have hnone : s.session = none := Rechunking.session hholds
        simp [hnone] at hsession
      | touching => simp [rewrites, hop, mem_def.1 hsession] at hrewrites
      | _ => simp [rewrites, hop] at hrewrites
  · exact (h.1.stable ⟨happends, Bool.eq_false_iff.2 hrewrites⟩).shows session hsession

theorem appendSession_of_appends
    (happends : s.Appends params offset session) : s.appendSession params offset = some session := by
  cases happends with
  | continued hsession hnext => simp [appendSession, continues, hsession, hnext]
  | @fresh _ hother heligible hchunks =>
    have hcontinues : s.continues offset = false := by
      cases hs : s.session with
      | none => simp [continues, hs]
      | some session => simpa [continues, hs] using hother session hs
    simp [appendSession, hcontinues, heligible, hchunks]

/-- An append that completes no chunk, or that found nothing pending. -/
theorem Stable.exposes (h : s.Stable params) (hfailed : s.failed = none)
    {working : Option FileWorkingState} (happends : s.Appends params offset session)
    (hcut : session.pendingBytes = [] ∨ (params.chunker.push (session.pendingBytes ++ buf)).1 = [])
    (hreach : chunksEnd session.chunks = session.baseOffset + session.cutOffset)
    {request : Option Request} :
    Exposes { { s with working := working }.beginAppend params session buf with
      request := request, target := (Request.write offset buf).model s.acked } := by
  obtain ⟨rfl, hholds⟩ := h.appends hfailed happends
  obtain ⟨listed, hlisted, hlength, hbytes⟩ := hholds.listed
  refine ⟨fun session' hsession' ↦ ?_, fun _ _ hop _ hsession' ↦ ?_, ?_⟩
  · cases hsession'
    refine hlisted.shows h.size ?_ (.inl (hreach.trans hlength.symm))
    rcases hcut with hnil | hcut
    · have hacked : s.acked = listed := by rw [hbytes, hnil, append_nil]
      rw [hacked]
      exact prefix_append _ _
    · have hpush := params.chunker.push_flatten (session.pendingBytes ++ buf)
      rw [hcut, flatten_nil, nil_append] at hpush
      change s.acked <+: listed ++ (params.chunker.push (session.pendingBytes ++ buf)).2
      rw [hpush, ← append_assoc, ← hbytes]
      exact prefix_append _ _
  · cases hsession'
    obtain ⟨rfl, rfl⟩ := Op.appending.inj (some.inj hop)
    dsimp only
    rw [chunksEnd_append_refsOf hreach]
    omega
  · change s.acked <+: (Request.write s.acked.length buf).model s.acked
    rw [model_write_length]
    exact prefix_append _ _

/-- The chunks of an append are listed. -/
theorem Exposes.advance (h : s.Exposes) {added : Nat} {refs : List ChunkRef}
    (hop : s.op = some (.appending added refs)) (hholds : s.Appending params added refs)
    (hsession : s.session = some session) : Exposes { s with
      session := some { session with
        chunks := session.chunks ++ refs
        nextExpectedOffset := session.nextExpectedOffset + added }
      op := some (.touching (session.nextExpectedOffset + added)) } := by
  obtain ⟨session', _, hsession', -, hlists, hlength, htarget⟩ := hholds.session
  cases hsession.symm.trans hsession'
  refine ⟨fun _ heq ↦ ?_, by simp, h.grows⟩
  cases heq
  have hreach := h.reaches added refs hop session hsession
  exact hlists.shows hholds.size (htarget ▸ h.grows) (.inl (hreach.trans hlength.symm))

end State

/-! ## The reads under way -/

open State

/-- A read under way: it will see the bytes of its floors, and the acknowledged bytes unless it is
stale. While the file is rewritten no read is under way that has overlapped an append. -/
structure ReaderHolds (params : Params) (s : State) (r : Reader) : Prop where
  floors : ∀ floor ∈ r.floors, floor <+: s.acked ∧ s.Sees params floor r.phase
  fresh : r.stale = false → s.rewrites = false → s.Sees params s.acked r.phase
  rewriting : s.rewrites = true → r.floors = []

/-- A read that returns these bytes returns what was acknowledged before each append it overlaps. -/
def Reader.Returns (r : Reader) (out : Option Bytes) : Prop :=
  ∀ floor ∈ r.floors, ∃ bytes, out = some bytes ∧
    ∀ i < r.len, r.offset + i < floor.length → bytes[i]? = floor[r.offset + i]?

section Steps

variable {params : Params} {s t : State} {r : Reader}

theorem Reader.notice_eq (happends : t.appends = s.appends) (hack : s.acknowledges t = false) :
    r.notice s t = r := by
  simp [Reader.notice, happends, hack]

theorem State.Quiet.notice_eq (ht : t.Quiet) (hack : s.acknowledges t = false) : r.notice s t = r := by
  simp [Reader.notice, ht.1, hack]

/-- A read after an acknowledgement. -/
theorem Reader.notice_acknowledged (ht : t.Quiet) (hack : s.acknowledges t = true) :
    r.notice s t = { r with stale := r.stale || r.phase ≠ .started } := by
  simp [Reader.notice, ht.1, hack]

theorem ReaderHolds.notice (h : ReaderHolds params s r) (hmoves : s.Moves params a t)
    (hstale : ∀ offset buf session, a = .request (.write offset buf) → s.Appends params offset session →
      r.stale = false)
    (hfloors : ∀ request, a = .request request → s.TakesWholeFile params request → r.floors = [])
    (hpending : ∀ newSize, a = .advance → s.op = some (.touching newSize) → s.session.isSome → r.holdsPending = false)
    (hload : ∀ sessionChunks content, a = .advance → s.op = some (.publishing sessionChunks content) →
      r.phase ≠ .noState) : ReaderHolds params t (r.notice s t) := by
  cases hmoves with
  | unseen hunseen happends hrewrites hack =>
    rw [Reader.notice_eq happends hack]
    refine ⟨fun floor hfloor ↦ ?_, fun hfalse hquiet ↦ ?_, fun htrue ↦ h.rewriting (hrewrites ▸ htrue)⟩
    · obtain ⟨hbelow, hsees⟩ := h.floors floor hfloor
      exact ⟨hunseen.acked ▸ hbelow, hunseen.sees hsees⟩
    · rw [hunseen.acked]
      exact hunseen.sees (h.fresh hfalse (hrewrites ▸ hquiet))
  | @opened offset buf session ha hsession hunseen hs happends hrewrites hack =>
    have hseen := hunseen.sees (h.fresh (hstale offset buf session ha hsession) hs.2)
    have hnotice : r.notice s t = { r with floors := s.acked :: r.floors } := by
      simp [Reader.notice, happends, hs.1, hack]
    rw [hnotice]
    refine ⟨fun floor hfloor ↦ ?_, fun _ _ ↦ hunseen.acked ▸ hseen, by simp [hrewrites]⟩
    rcases mem_cons.1 hfloor with rfl | hfloor
    · exact ⟨hunseen.acked ▸ prefix_rfl, hseen⟩
    · obtain ⟨hbelow, hsees⟩ := h.floors floor hfloor
      exact ⟨hunseen.acked ▸ hbelow, hunseen.sees hsees⟩
  | rewriting hs happends hrewrites =>
    have hnil : (r.notice s t).floors = [] := by
      have hr : r.floors = [] := by
        rcases hs with hs | ⟨request, ha, hwhole⟩
        · exact h.rewriting hs
        · exact hfloors request ha hwhole
      simp [Reader.notice, happends, hr]
    exact ⟨by simp [hnil], by simp [hrewrites], fun _ ↦ hnil⟩
  | appended ha hop hsession ht hack hbelow hsize hworking hcontent hlists =>
    rw [Reader.notice_acknowledged ht hack]
    refine ⟨fun floor hfloor ↦ ?_, fun hfalse _ ↦ ?_, by simp [ht.2]⟩
    · obtain ⟨hfloor, hsees⟩ := h.floors floor hfloor
      refine ⟨hfloor.trans hbelow, hsees.grow (fun chunks pending hphase ↦ .inr ?_) hsize hworking hcontent hlists⟩
      simpa [Reader.holdsPending, hphase] using hpending _ ha hop hsession
    · have hstarted : r.phase = .started := by simpa using (Bool.or_eq_false_iff.1 hfalse).2
      simp only [hstarted]
      trivial
  | rewritten hs ht hack =>
    rw [Reader.notice_acknowledged ht hack]
    refine ⟨by simp [h.rewriting hs], fun hfalse _ ↦ ?_, by simp [ht.2]⟩
    have hstarted : r.phase = .started := by simpa using (Bool.or_eq_false_iff.1 hfalse).2
    simp only [hstarted]
    trivial
  | refreshed hs ht hack hsize hacked hfalls hloads =>
    have hsees (bytes : Bytes) (hbelow : bytes <+: s.acked) (hsees : s.Sees params bytes r.phase) :
        t.Sees params bytes r.phase := by
      cases hphase : r.phase <;> rw [hphase] at hsees
      case started => trivial
      case session chunks pending => rwa [Sees, hsize]
      case noSession => exact hfalls bytes hbelow hsees
      case noState =>
        rcases hloads with ⟨ha, sessionChunks, content, hop⟩ | hloads
        · exact absurd hphase (hload sessionChunks content ha hop)
        · exact hloads bytes hbelow hsees
    rw [ht.notice_eq hack]
    refine ⟨fun floor hfloor ↦ ?_, fun hfalse _ ↦ ?_, by simp [ht.2]⟩
    · obtain ⟨hbelow, hseen⟩ := h.floors floor hfloor
      exact ⟨hacked ▸ hbelow, hsees floor hbelow hseen⟩
    · rw [hacked]
      exact hsees s.acked prefix_rfl (h.fresh hfalse hs.2)

theorem getElem?_sliceOf {offset : Nat} (h : bytes <+: buf) (hi : i < len)
    (hlt : offset + i < bytes.length) : (sliceOf buf offset len)[i]? = bytes[offset + i]? := by
  have hle := h.length_le
  have hmin : min offset buf.length = offset := by omega
  obtain ⟨_, rfl⟩ := h
  rw [sliceOf_eq_range, hmin, Layout.getElem?_range, if_pos (by omega), getElem?_append_left hlt]

/-- What a read returns at its last look. -/
theorem ReaderHolds.returns (h : ReaderHolds params s r) {out : Option Bytes} (hlook : r.look s = .inr out) :
    r.Returns out := by
  intro floor hfloor
  obtain ⟨-, hsees⟩ := h.floors floor hfloor
  unfold Reader.look at hlook
  cases hphase : r.phase with
  | started => simp [hphase] at hlook
  | session =>
    rw [hphase] at hsees
    simp only [hphase, Sum.inr.injEq] at hlook
    exact ⟨_, hlook.symm, fun i hi hlt ↦ getElem?_sliceOf hsees.1 hi hlt⟩
  | noSession =>
    rw [hphase] at hsees
    simp only [hphase] at hlook
    cases hworking : s.working with
    | none => simp [hworking] at hlook
    | some =>
      simp only [Sees, Falls, hworking] at hsees
      simp only [hworking, elim_some, Sum.inr.injEq] at hlook
      exact ⟨_, hlook.symm, fun i hi hlt ↦ getElem?_sliceOf hsees hi hlt⟩
  | noState =>
    rw [hphase] at hsees
    simp only [hphase, Sum.inr.injEq] at hlook
    obtain ⟨_, hbelow, hread⟩ := Loads.readContent hsees r.offset r.len
    exact ⟨_, hlook.symm.trans hread, fun i hi hlt ↦ getElem?_sliceOf hbelow hi hlt⟩

/-- A read that goes on. -/
theorem ReaderHolds.look (h : ReaderHolds params s r) (hclean : s.Clean params)
    (hexposes : s.appends = true → s.Exposes) (hlook : r.look s = .inl phase) :
    ReaderHolds params s { r with phase := phase } := by
  have hnext : (∀ floor ∈ r.floors, s.Sees params floor phase) ∧
      (r.stale = false → s.rewrites = false → s.Sees params s.acked phase) := by
    unfold Reader.look at hlook
    cases hphase : r.phase with
    | started =>
      simp only [hphase, Sum.inl.injEq] at hlook
      cases hsession : s.session with
      | some session =>
        have hshows := hclean.shows hexposes session hsession
        obtain rfl : ReadPhase.session session.chunks session.pendingBytes = phase := by
          simpa [hsession] using hlook
        exact ⟨fun floor hfloor ↦ hshows.mono (h.floors floor hfloor).1, fun _ _ ↦ hshows⟩
      | none =>
        obtain rfl : ReadPhase.noSession = phase := by simpa [hsession] using hlook
        have hfalls (hrewrites : s.rewrites = false) : s.Falls params s.acked := by
          have happends : s.appends = false := by
            refine Bool.eq_false_iff.2 fun happends ↦ ?_
            have hholds := hclean.1
            unfold appends at happends
            split at happends
            next hop =>
              simp only [Holds, hop] at hholds
              obtain ⟨_, -, hsome, -⟩ := Appending.session hholds
              simp [hsession] at hsome
            · simp [hsession] at happends
            · simp at happends
          exact (hclean.1.stable ⟨happends, hrewrites⟩).falls hclean.2 hsession
        refine ⟨fun floor hfloor ↦ ?_, fun _ hrewrites ↦ hfalls hrewrites⟩
        cases hrewrites : s.rewrites with
        | true => simp [h.rewriting hrewrites] at hfloor
        | false => exact (hfalls hrewrites).mono (h.floors floor hfloor).1
    | session => simp [hphase] at hlook
    | noSession =>
      simp only [hphase] at hlook
      cases hworking : s.working with
      | some => simp [hworking] at hlook
      | none =>
        obtain rfl : ReadPhase.noState = phase := by simpa [hworking] using hlook
        have hloads (bytes : Bytes) (hsees : s.Sees params bytes r.phase) : s.Loads params bytes := by
          rw [hphase] at hsees
          simpa only [Sees, Falls, hworking] using hsees
        exact ⟨fun floor hfloor ↦ hloads floor (h.floors floor hfloor).2,
          fun hfalse hrewrites ↦ hloads s.acked (h.fresh hfalse hrewrites)⟩
    | noState => simp [hphase] at hlook
  exact ⟨fun floor hfloor ↦ ⟨(h.floors floor hfloor).1, hnext.1 floor hfloor⟩, hnext.2, h.rewriting⟩

end Steps

/-! ## Runs -/

namespace Reads

variable {params : Params} {s t : Reads}

/-- The file is in order, and so are the reads under way and those that have returned. -/
structure Hold (params : Params) (s : Reads) : Prop where
  clean : s.file.Clean params
  exposes : s.file.appends = true → s.file.Exposes
  readers : ∀ r ∈ s.readers, ReaderHolds params s.file r
  returned : ∀ entry ∈ s.returned, entry.1.Returns entry.2

/-- An append exposes the acknowledged bytes from its first step to its last. -/
theorem Hold.exposes_step {u : State} (h : s.Hold params) (hkeeps : s.KeepsReads params (.file a))
    (hstep : s.file.step params a = some u) (happends : u.appends = true) : u.Exposes := by
  cases steps_of_step hstep with
  | request hstep =>
    have hbegun := begun_of_beginRequest hstep
    simp only [beginRequest] at hstep
    split_ifs at hstep with hinvalid hsome
    · cases hstep
      exact h.exposes happends
    have hop : s.file.op = none := not_isSome_iff_eq_none.1 hsome
    have hstable : s.file.Stable params := h.clean.1.stable (quiet_of_op hop)
    cases hbegun with
    | unchanged => simp [appends, hop] at happends
    | refused => simp [appends, op_materialize, hop] at happends
    | @append _ _ session hrequest hsession =>
      subst hrequest
      obtain ⟨hcut, hreach, -⟩ := hkeeps.2.2 session (appendSession_of_appends hsession)
      exact hstable.exposes h.clean.2 hsession hcut hreach
    | rechunk => simp [appends] at happends
  | advance hstep =>
    have hholds := h.clean.1
    obtain ⟨op, hop, hstep⟩ := bind_eq_some_iff.1 hstep
    simp only [Holds, hop] at hholds
    cases op with
    | appending =>
      obtain ⟨_, hsession, rfl⟩ := map_eq_some_iff.1 hstep
      exact (h.exposes (by simp [appends, hop])).advance hop hholds hsession
    | rechunking =>
      obtain ⟨_, _, rfl⟩ := map_eq_some_iff.1 hstep
      have hsession : s.file.session = none := Rechunking.session hholds
      simp [appends, hsession] at happends
    | fsyncing sessionChunks =>
      cases sessionChunks with
      | some =>
        cases hstep
        simp [appends] at happends
      | none =>
        obtain ⟨v, -, rfl⟩ := map_eq_some_iff.1 hstep
        simp [appends] at happends
    | _ =>
      cases hstep
      simp [appends, finishCapture] at happends
  | failAppend | failRechunk | failFsync | failCapture | fsync | capture => simp [appends] at happends
  | setAttr | drain | snapshot | abort => exact { h.exposes happends with }

theorem Hold.file (h : s.Hold params) (hkeeps : s.KeepsReads params (.file a))
    (hstep : s.step params (.file a) = some t) : t.Hold params := by
  obtain ⟨u, hu, rfl⟩ := map_eq_some_iff.1 hstep
  have hmoves := h.clean.moves hkeeps.1 (fun happends ↦ (h.exposes happends).grows) hu
  refine ⟨h.clean.step hkeeps.1 hu, h.exposes_step hkeeps hu, fun _ hr' ↦ ?_, h.returned⟩
  obtain ⟨r, hr, rfl⟩ := mem_map.1 hr'
  refine (h.readers r hr).notice hmoves ?_ ?_ ?_ ?_
  · rintro _ _ session rfl hsession
    exact (hkeeps.2.2 session (appendSession_of_appends hsession)).2.2 r hr
  · rintro _ rfl hwhole
    exact hkeeps.2.1 hwhole r hr
  · rintro _ rfl hop hsession
    have hadvance : s.KeepsAdvance := hkeeps.2
    simp only [KeepsAdvance, hop] at hadvance
    exact hadvance hsession r hr
  · rintro _ _ rfl hop
    have hadvance : s.KeepsAdvance := hkeeps.2
    simp only [KeepsAdvance, hop] at hadvance
    exact hadvance r hr

theorem Hold.start {offset : Nat} (h : s.Hold params)
    (hstep : s.step params (.start offset len) = some t) : t.Hold params := by
  cases hstep
  refine ⟨h.clean, h.exposes, fun r hr ↦ ?_, h.returned⟩
  rcases mem_cons.1 hr with rfl | hr
  · refine ⟨fun _ hfloor ↦ ?_, fun _ _ ↦ trivial, fun hrewrites ↦ ?_⟩
    · simp only [mem_ite_nil_right, mem_singleton] at hfloor
      exact ⟨hfloor.2 ▸ prefix_rfl, trivial⟩
    · have happends : s.file.appends = false := appends_of_rewrites hrewrites
      simp [happends]
  · exact h.readers r hr

theorem Hold.look (h : s.Hold params) (hstep : s.step params (.look i) = some t) :
    t.Hold params := by
  obtain ⟨r, hr, rfl⟩ := map_eq_some_iff.1 hstep
  have hholds := h.readers r (mem_of_getElem? hr)
  cases hlook : r.look s.file with
  | inl =>
    refine ⟨h.clean, h.exposes, fun r' hr' ↦ ?_, h.returned⟩
    rcases mem_or_eq_of_mem_set hr' with hr' | rfl
    · exact h.readers r' hr'
    · exact hholds.look h.clean h.exposes hlook
  | inr =>
    refine ⟨h.clean, h.exposes, fun r' hr' ↦ h.readers r' (mem_of_mem_eraseIdx hr'), fun entry hentry ↦ ?_⟩
    rcases mem_cons.1 hentry with rfl | hentry
    · exact hholds.returns hlook
    · exact h.returned entry hentry

theorem hold_of_reachable (hs : (reading params).ReachableUnder (KeepsReads params) s) : s.Hold params := by
  refine hs.invariant (I := Hold params) ?_ ?_
  · rintro u ⟨hloaded, hreaders, hreturned⟩
    refine ⟨hloaded.clean, fun happends ↦ ?_, by simp [hreaders], by simp [hreturned]⟩
    simp [appends, hloaded.2.2.1] at happends
  · intro u a v _ h hkeeps hstep
    cases a with
    | file => exact h.file hkeeps hstep
    | start => exact h.start hstep
    | look => exact h.look hstep

section Runs

def loaded : Reads :=
  ⟨created, [], []⟩

theorem loaded_init : (reading pairs).init loaded :=
  ⟨created_loaded, rfl, rfl⟩

end Runs

end Reads

end Lchfs.File
