/-
The similarity index: a graph of vectors and the list of the events they stand for.

`hnsw_rs` numbers vectors and knows nothing of events; `usize_to_event_id` has, at each
number, the event.  `save_to_disk` dumps the graph to two files and writes the list to
`mappings.bin`; `HnswProvider::new` loads the three files and joins graph and list by
position.  The process may end between any two writes, and files of different saves are
then loaded together.

* `matches_insert`, `matches_load` — the list fits the graph, and what keeps it so;
* `similarity_hits_name_events` — in every run in which the files loaded together fit,
  every hit names the event of its vector and no number is given twice;
* `filesFit_of_wholeSaves` — they do when every save is completed;
* `number_given_twice` — a save cut off before `mappings.bin`.
-/
import Fossic.Glob
import Fossic.KeyedList
import Fossic.Transition
import Fossic.Types

namespace Fossic

open Transition KeyedList

/-! ### The graph -/

/-- A vector of the graph with its `DataId`; which event it was inserted for is kept as
history. -/
structure Point (F : Type) where
  vector : List F
  dataId : ℕ
  insertedFor : EventId
  deriving DecidableEq

structure Neighbour (F S : Type) where
  point : Point F
  distance : S

/-- A graph file: the points dumped to it, or what an unfinished dump has left. -/
inductive GraphFile (F : Type)
  | absent
  | torn
  | dump (points : List (Point F))

/-- `hnsw_rs`: `HnswIo::load_hnsw` on the data file and the graph file, where `none` is an
error or a panic that was caught, and `Hnsw::search`. -/
structure HnswLib (F S : Type) where
  load : GraphFile F → GraphFile F → Option (List (Point F))
  search : List (Point F) → List F → ℕ → ℕ → List (Neighbour F S)

/-- What is relied on: the two files of one dump load as what was dumped, and a search
returns members. -/
structure HnswLib.Sound {F S : Type} (lib : HnswLib F S) : Prop where
  load_dump : ∀ points, lib.load (.dump points) (.dump points) = some points
  search_mem : ∀ points v k ef, ∀ n ∈ lib.search points v k ef, n.point ∈ points

/-! ### The provider -/

structure HnswConfig where
  dimensions : ℕ
  efSearch : ℕ
  streamFilterFudgeFactor : ℕ

inductive HnswError
  | invalidDimensions (expected got : ℕ)

inductive MappingsFile
  | absent
  | torn
  | written (usizeToEventId : List EventId) (eventIdToStreamId : List (EventId × String))

structure HnswInner (F : Type) where
  index : List (Point F)
  usizeToEventId : List EventId
  eventIdToStreamId : List (EventId × String)
  nextId : ℕ

def HnswInner.new (F : Type) : HnswInner F := ⟨[], [], [], 0⟩

/-- `index`, and `index_with_stream_id` when the stream is given. -/
def HnswInner.insert {F : Type} (inner : HnswInner F) (eventId : EventId)
    (streamId : Option String) (embedding : List F) : HnswInner F where
  index := inner.index ++ [⟨embedding, inner.nextId, eventId⟩]
  usizeToEventId := inner.usizeToEventId ++ [eventId]
  eventIdToStreamId :=
    match streamId with
    | some s => upsert inner.eventIdToStreamId eventId s
    | none => inner.eventIdToStreamId
  nextId := inner.nextId + 1

/-- The directory `hnsw/` beside the store. -/
structure HnswDir (F : Type) where
  data : GraphFile F
  graph : GraphFile F
  mappings : MappingsFile

def GraphFile.present {F : Type} : GraphFile F → Bool
  | .absent => false
  | _ => true

def MappingsFile.present : MappingsFile → Bool
  | .absent => false
  | _ => true

def HnswDir.filesExist {F : Type} (dir : HnswDir F) : Bool :=
  dir.data.present && dir.graph.present && dir.mappings.present

section Provider

variable {F S : Type}

def loadInner (lib : HnswLib F S) (dir : HnswDir F) : Option (HnswInner F) :=
  match lib.load dir.data dir.graph, dir.mappings with
  | some index, .written ids streams => some ⟨index, ids, streams, ids.length⟩
  | _, _ => none

/-- Load what is there; start empty when files are missing or do not load. -/
def tryLoadOrInit (lib : HnswLib F S) (dir : HnswDir F) : HnswInner F :=
  if dir.filesExist then (loadInner lib dir).getD (.new F) else .new F

structure SimilarityQuery (F : Type) where
  embedding : List F
  k : ℕ
  streamPattern : Option String

structure SimilarityHit (S : Type) where
  eventId : EventId
  score : S

def usizeMax : ℕ := 2 ^ 64 - 1

/-- The candidates that `query` asks the graph for. -/
def internalK (config : HnswConfig) (q : SimilarityQuery F) : ℕ :=
  if q.streamPattern.isSome then max (min (q.k * config.streamFilterFudgeFactor) usizeMax) q.k
  else q.k

/-- The hit for a neighbour, unless its number has no event or the pattern excludes it. -/
def hitFor (inner : HnswInner F) (pattern : Option String) (n : Neighbour F S) :
    Option (SimilarityHit S) :=
  match inner.usizeToEventId[n.point.dataId]? with
  | none => none
  | some eventId =>
    match pattern with
    | none => some ⟨eventId, n.distance⟩
    | some pattern =>
      match find inner.eventIdToStreamId eventId with
      | some streamId => if globMatches pattern streamId then some ⟨eventId, n.distance⟩ else none
      | none => none

/-- `query`: the first `k` hits. -/
def hnswQuery (lib : HnswLib F S) (config : HnswConfig) (inner : HnswInner F)
    (q : SimilarityQuery F) : Except HnswError (List (SimilarityHit S)) :=
  if q.embedding.length ≠ config.dimensions then
    .error (.invalidDimensions config.dimensions q.embedding.length)
  else if q.k = 0 then .ok []
  else if inner.index.length = 0 then .ok []
  else .ok (((lib.search inner.index q.embedding (internalK config q) config.efSearch).filterMap
    (hitFor inner q.streamPattern)).take q.k)

/-! ### Saving -/

inductive HnswFile
  | data
  | graph
  | mappings

def HnswDir.remove (dir : HnswDir F) : HnswFile → HnswDir F
  | .data => { dir with data := .absent }
  | .graph => { dir with graph := .absent }
  | .mappings => { dir with mappings := .absent }

/-- Where `save_to_disk` is: in `file_dump`, with the files that are whole; before
`mappings.bin` is created; before its contents are written; removing what is in the list. -/
inductive Saving
  | dumping (data graph : Bool)
  | dumped
  | created
  | cleaning (file : HnswFile) (rest : List HnswFile)

structure Similarity (F : Type) where
  dir : HnswDir F
  provider : Option (HnswInner F)
  saving : Option Saving

def Similarity.init (F : Type) : Similarity F := ⟨⟨.absent, .absent, .absent⟩, none, none⟩

inductive HnswAction (F : Type)
  /-- `HnswProvider::new`. -/
  | reopen
  | index (eventId : EventId) (streamId : Option String) (embedding : List F)
  | save
  /-- `file_dump` writes to a file, which is whole afterwards or not. -/
  | writeData (whole : Bool)
  | writeGraph (whole : Bool)
  | dumped
  | createMappings
  | writeMappings
  /-- A write fails: `save_to_disk` cleans up and returns the error. -/
  | fail
  | remove (done : Bool)
  /-- A crash, or the end of the process. -/
  | exit

def dumpTo (index : List (Point F)) (whole : Bool) : GraphFile F :=
  if whole then .dump index else .torn

/-- `save_empty_mappings` and `save_mappings`. -/
def mappingsOf (inner : HnswInner F) : MappingsFile :=
  if inner.nextId = 0 then .written [] []
  else .written inner.usizeToEventId inner.eventIdToStreamId

/-- `cleanup_index_files`, after a file. -/
def cleanRest : List HnswFile → Option Saving
  | [] => none
  | file :: rest => some (.cleaning file rest)

/-- One step.  `save_to_disk` holds the mutex, so nothing is indexed meanwhile. -/
def hnswStep (lib : HnswLib F S) (config : HnswConfig) (s : Similarity F) :
    HnswAction F → Option (Similarity F)
  | .reopen =>
    match s.provider with
    | none =>
      if config.dimensions = 0 then none
      else some { s with provider := some (tryLoadOrInit lib s.dir) }
    | some _ => none
  | .index eventId streamId embedding =>
    match s.provider, s.saving with
    | some inner, none =>
      if embedding.length ≠ config.dimensions then some s
      else some { s with provider := some (inner.insert eventId streamId embedding) }
    | _, _ => none
  | .save =>
    match s.provider, s.saving with
    | some inner, none =>
      some { s with saving := some (if inner.nextId = 0 then .dumped else .dumping false false) }
    | _, _ => none
  | .writeData whole =>
    match s.provider, s.saving with
    | some inner, some (.dumping _ graph) =>
      let dir := { s.dir with data := dumpTo inner.index whole }
      some { s with dir := dir, saving := some (.dumping whole graph) }
    | _, _ => none
  | .writeGraph whole =>
    match s.provider, s.saving with
    | some inner, some (.dumping data _) =>
      let dir := { s.dir with graph := dumpTo inner.index whole }
      some { s with dir := dir, saving := some (.dumping data whole) }
    | _, _ => none
  | .dumped =>
    match s.saving with
    | some (.dumping true true) => some { s with saving := some .dumped }
    | _ => none
  | .createMappings =>
    match s.saving with
    | some .dumped => some { s with dir := { s.dir with mappings := .torn }, saving := some .created }
    | _ => none
  | .writeMappings =>
    match s.provider, s.saving with
    | some inner, some .created =>
      some { s with dir := { s.dir with mappings := mappingsOf inner }, saving := none }
    | _, _ => none
  | .fail =>
    match s.provider, s.saving with
    | _, some (.cleaning _ _) => none
    | some inner, some _ =>
      some { s with
        saving := if inner.nextId = 0 then none else some (.cleaning .data [.graph, .mappings]) }
    | _, _ => none
  | .remove done =>
    match s.saving with
    | some (.cleaning file rest) =>
      some { s with
        dir := if done then s.dir.remove file else s.dir
        saving := cleanRest rest }
    | _ => none
  | .exit => some { s with provider := none, saving := none }

end Provider

/-! ### List and graph -/

variable {F S : Type} {lib : HnswLib F S} {config : HnswConfig} {s s' : Similarity F}
  {a : HnswAction F} {inner : HnswInner F}

/-- The list has, at the number of each point, the event it was inserted for, and
numbers are given out in the order of the list. -/
structure HnswInner.Matches (inner : HnswInner F) : Prop where
  next : inner.nextId = inner.usizeToEventId.length
  named : ∀ p ∈ inner.index, inner.usizeToEventId[p.dataId]? = some p.insertedFor

theorem matches_new : (HnswInner.new F).Matches :=
  ⟨rfl, fun _ hp => absurd hp List.not_mem_nil⟩

theorem HnswInner.Matches.lt (h : inner.Matches) {p : Point F} (hp : p ∈ inner.index) :
    p.dataId < inner.nextId := by
  rw [h.next]
  obtain ⟨hlt, -⟩ := List.getElem?_eq_some_iff.mp (h.named p hp)
  exact hlt

theorem matches_insert (h : inner.Matches) {eventId : EventId} {streamId : Option String}
    {embedding : List F} : (inner.insert eventId streamId embedding).Matches where
  next := by
    show inner.nextId + 1 = (inner.usizeToEventId ++ [eventId]).length
    rw [h.next, List.length_append]
    rfl
  named p hp := by
    show (inner.usizeToEventId ++ [eventId])[p.dataId]? = some p.insertedFor
    rcases List.mem_append.mp hp with hp | hp
    · rw [List.getElem?_append_left (h.next ▸ h.lt hp)]
      exact h.named p hp
    · -- the new point has the number that is the length of the list
      obtain rfl := List.mem_singleton.mp hp
      show (inner.usizeToEventId ++ [eventId])[inner.nextId]? = some eventId
      rw [h.next, List.getElem?_append_right le_rfl, Nat.sub_self]
      rfl

/-- The files that would be loaded together fit. -/
def HnswDir.Fits (lib : HnswLib F S) (dir : HnswDir F) : Prop :=
  dir.filesExist = true → ∀ inner, loadInner lib dir = some inner →
    ∀ p ∈ inner.index, inner.usizeToEventId[p.dataId]? = some p.insertedFor

theorem matches_load {dir : HnswDir F} : (tryLoadOrInit lib dir).Matches ↔ dir.Fits lib := by
  rw [tryLoadOrInit, HnswDir.Fits]
  by_cases hexist : dir.filesExist = true
  · rw [if_pos hexist]
    rcases hload : loadInner lib dir with _ | inner
    · exact ⟨fun _ _ _ h => absurd h (by simp), fun _ => matches_new⟩
    · have hnext : inner.nextId = inner.usizeToEventId.length := by
        rw [loadInner] at hload
        split at hload
        · obtain rfl := Option.some_inj.mp hload
          rfl
        · exact absurd hload (by simp)
      constructor
      · rintro h - _ heq
        obtain rfl := Option.some_inj.mp heq
        exact h.named
      · exact fun h => ⟨hnext, h hexist inner rfl⟩
  · rw [if_neg hexist]
    exact ⟨fun _ h => absurd h hexist, fun _ => matches_new⟩

/-! ### Queries -/

/-- What a provider promises: its hits are for points that the graph has found, with the
events that these were inserted for, and the next number has not been given out. -/
structure NamesEvents (lib : HnswLib F S) (config : HnswConfig) (inner : HnswInner F) : Prop where
  hits : ∀ q hits, hnswQuery lib config inner q = .ok hits → ∃ ns : List (Neighbour F S),
    ns.Sublist (lib.search inner.index q.embedding (internalK config q) config.efSearch) ∧
      (∀ n ∈ ns, n.point ∈ inner.index) ∧
        hits = ns.map fun n => ⟨n.point.insertedFor, n.distance⟩
  next : inner.nextId = inner.usizeToEventId.length
  fresh : ∀ p ∈ inner.index, p.dataId ≠ inner.nextId

theorem hitFor_eq_some {pattern : Option String} {n : Neighbour F S} {hit : SimilarityHit S}
    (h : hitFor inner pattern n = some hit) :
    inner.usizeToEventId[n.point.dataId]? = some hit.eventId ∧ hit.score = n.distance := by
  rw [hitFor] at h
  split at h
  · exact absurd h (by simp)
  · rename_i eventId hget
    split at h
    · obtain rfl := Option.some_inj.mp h
      exact ⟨hget, rfl⟩
    · split at h
      · split at h
        · obtain rfl := Option.some_inj.mp h
          exact ⟨hget, rfl⟩
        · exact absurd h (by simp)
      · exact absurd h (by simp)

/-- What is kept, each by the same function. -/
theorem filterMap_eq_map_filter {α β : Type} {f : α → Option β} {g : α → β} {l : List α}
    (h : ∀ a ∈ l, ∀ b, f a = some b → b = g a) :
    l.filterMap f = (l.filter fun a => (f a).isSome).map g := by
  induction l with
  | nil => rfl
  | cons a l ih =>
    obtain ⟨ha, hl⟩ := List.forall_mem_cons.mp h
    rcases hfa : f a with _ | b
    · rw [List.filterMap_cons_none hfa, List.filter_cons_of_neg (by simp [hfa]), ih hl]
    · rw [List.filterMap_cons_some hfa, List.filter_cons_of_pos (by simp [hfa]), List.map_cons,
        ha b hfa, ih hl]

/-- **Hits name the events of their vectors** when the list fits the graph. -/
theorem namesEvents_of_matches (hlib : lib.Sound) (h : inner.Matches) :
    NamesEvents lib config inner where
  hits := by
    intro q hits hquery
    have hnone : hits = [] → ∃ ns : List (Neighbour F S),
        ns.Sublist (lib.search inner.index q.embedding (internalK config q) config.efSearch) ∧
          (∀ n ∈ ns, n.point ∈ inner.index) ∧
            hits = ns.map fun n => ⟨n.point.insertedFor, n.distance⟩ := fun heq =>
      ⟨[], List.nil_sublist _, fun _ hn => absurd hn List.not_mem_nil, heq⟩
    rw [hnswQuery] at hquery
    split at hquery
    · exact absurd hquery (by simp)
    · split at hquery
      · exact hnone (Except.ok.inj hquery).symm
      · split at hquery
        · exact hnone (Except.ok.inj hquery).symm
        · have hmem := hlib.search_mem inner.index q.embedding (internalK config q) config.efSearch
          generalize lib.search inner.index q.embedding (internalK config q) config.efSearch = found
            at hquery hmem ⊢
          obtain rfl := Except.ok.inj hquery
          -- a neighbour that has a hit has the one of its own event
          have hhit : ∀ n ∈ found, ∀ hit, hitFor inner q.streamPattern n = some hit →
              hit = ⟨n.point.insertedFor, n.distance⟩ := by
            rintro n hn ⟨eventId, score⟩ hsome
            obtain ⟨hget, rfl⟩ := hitFor_eq_some hsome
            obtain rfl := Option.some_inj.mp (hget.symm.trans (h.named _ (hmem n hn)))
            rfl
          rw [filterMap_eq_map_filter hhit, ← List.map_take]
          have hsub := (List.take_sublist q.k _).trans (List.filter_sublist (l := found)
            (p := fun n => (hitFor inner q.streamPattern n).isSome))
          exact ⟨_, hsub, fun n hn => hmem n (hsub.subset hn), rfl⟩
  next := h.next
  fresh p hp := (h.lt hp).ne

/-! ### Steps -/

/-- The steps that can be taken, each branch of `hnswStep` with its conditions. -/
inductive HnswTaken (lib : HnswLib F S) (s : Similarity F) : HnswAction F → Similarity F → Prop
  | reopened (hnone : s.provider = none) :
      HnswTaken lib s .reopen { s with provider := some (tryLoadOrInit lib s.dir) }
  | refused {eventId : EventId} {streamId : Option String} {embedding : List F} :
      HnswTaken lib s (.index eventId streamId embedding) s
  | indexed {inner : HnswInner F} {eventId : EventId} {streamId : Option String}
      {embedding : List F} (hprovider : s.provider = some inner) (hsaving : s.saving = none) :
      HnswTaken lib s (.index eventId streamId embedding)
        { s with provider := some (inner.insert eventId streamId embedding) }
  | begun {inner : HnswInner F} (hprovider : s.provider = some inner) (hsaving : s.saving = none) :
      HnswTaken lib s .save
        { s with saving := some (if inner.nextId = 0 then .dumped else .dumping false false) }
  | wroteData {inner : HnswInner F} {whole data graph : Bool} (hprovider : s.provider = some inner)
      (hsaving : s.saving = some (.dumping data graph)) :
      HnswTaken lib s (.writeData whole)
        { s with dir := { s.dir with data := dumpTo inner.index whole }
                 saving := some (.dumping whole graph) }
  | wroteGraph {inner : HnswInner F} {whole data graph : Bool}
      (hprovider : s.provider = some inner) (hsaving : s.saving = some (.dumping data graph)) :
      HnswTaken lib s (.writeGraph whole)
        { s with dir := { s.dir with graph := dumpTo inner.index whole }
                 saving := some (.dumping data whole) }
  | dumped (hsaving : s.saving = some (.dumping true true)) :
      HnswTaken lib s .dumped { s with saving := some .dumped }
  | created (hsaving : s.saving = some .dumped) :
      HnswTaken lib s .createMappings
        { s with dir := { s.dir with mappings := .torn }, saving := some .created }
  | saved {inner : HnswInner F} (hprovider : s.provider = some inner)
      (hsaving : s.saving = some .created) :
      HnswTaken lib s .writeMappings
        { s with dir := { s.dir with mappings := mappingsOf inner }, saving := none }
  | failed {inner : HnswInner F} {saving : Saving} (hprovider : s.provider = some inner)
      (hsaving : s.saving = some saving) (hwriting : ∀ file rest, saving ≠ .cleaning file rest) :
      HnswTaken lib s .fail
        { s with saving := if inner.nextId = 0 then none
                           else some (.cleaning .data [.graph, .mappings]) }
  | removed {done : Bool} {file : HnswFile} {rest : List HnswFile}
      (hsaving : s.saving = some (.cleaning file rest)) :
      HnswTaken lib s (.remove done)
        { s with dir := if done then s.dir.remove file else s.dir
                 saving := cleanRest rest }
  | ended : HnswTaken lib s .exit { s with provider := none, saving := none }

/-- **Inversion**: the one place where `hnswStep` is taken apart. -/
theorem hnswTaken_of_step (h : hnswStep lib config s a = some s') : HnswTaken lib s a s' := by
  cases a with
  | reopen =>
    rw [hnswStep] at h
    split at h
    · rename_i hnone
      split at h
      · exact absurd h (by simp)
      · obtain rfl := Option.some_inj.mp h
        exact .reopened hnone
    · exact absurd h (by simp)
  | index eventId streamId embedding =>
    rw [hnswStep] at h
    split at h
    · rename_i hprovider hsaving
      split at h
      · obtain rfl := Option.some_inj.mp h
        exact .refused
      · obtain rfl := Option.some_inj.mp h
        exact .indexed hprovider hsaving
    · exact absurd h (by simp)
  | save =>
    rw [hnswStep] at h
    split at h
    · rename_i hprovider hsaving
      obtain rfl := Option.some_inj.mp h
      exact .begun hprovider hsaving
    · exact absurd h (by simp)
  | writeData whole =>
    rw [hnswStep] at h
    split at h
    · rename_i hprovider hsaving
      obtain rfl := Option.some_inj.mp h
      exact .wroteData hprovider hsaving
    · exact absurd h (by simp)
  | writeGraph whole =>
    rw [hnswStep] at h
    split at h
    · rename_i hprovider hsaving
      obtain rfl := Option.some_inj.mp h
      exact .wroteGraph hprovider hsaving
    · exact absurd h (by simp)
  | dumped =>
    rw [hnswStep] at h
    split at h
    · rename_i hsaving
      obtain rfl := Option.some_inj.mp h
      exact .dumped hsaving
    · exact absurd h (by simp)
  | createMappings =>
    rw [hnswStep] at h
    split at h
    · rename_i hsaving
      obtain rfl := Option.some_inj.mp h
      exact .created hsaving
    · exact absurd h (by simp)
  | writeMappings =>
    rw [hnswStep] at h
    split at h
    · rename_i hprovider hsaving
      obtain rfl := Option.some_inj.mp h
      exact .saved hprovider hsaving
    · exact absurd h (by simp)
  | fail =>
    rw [hnswStep] at h
    split at h
    · exact absurd h (by simp)
    · rename_i hwriting hprovider hsaving
      obtain rfl := Option.some_inj.mp h
      exact .failed hprovider hsaving fun file rest heq => hwriting file rest (by rw [heq])
    · exact absurd h (by simp)
  | remove done =>
    rw [hnswStep] at h
    split at h
    · rename_i hsaving
      obtain rfl := Option.some_inj.mp h
      exact .removed hsaving
    · exact absurd h (by simp)
  | exit =>
    obtain rfl := Option.some_inj.mp h
    exact .ended

/-! ### Runs -/

/-- A reopening finds files that fit. -/
def FilesFit (lib : HnswLib F S) (s : Similarity F) : HnswAction F → Prop
  | .reopen => s.provider = none → s.dir.Fits lib
  | _ => True

def Similarity.Matches (s : Similarity F) : Prop :=
  ∀ inner, s.provider = some inner → inner.Matches

theorem matches_step (h : s.Matches) (ha : FilesFit lib s a)
    (hstep : hnswStep lib config s a = some s') : s'.Matches := by
  cases hnswTaken_of_step hstep with
  | reopened hnone =>
    rintro inner heq
    obtain rfl := Option.some_inj.mp heq
    exact matches_load.mpr (ha hnone)
  | indexed hprovider =>
    rintro inner heq
    obtain rfl := Option.some_inj.mp heq
    exact matches_insert (h _ hprovider)
  | ended =>
    rintro inner heq
    exact absurd heq (by simp)
  | _ => exact h

/-- **Similarity hits name the right events** in every state of every run in which each
reopening that loads finds, in `mappings.bin`, for every point of the graph it loads the
event that the point was inserted for. -/
theorem similarity_hits_name_events (lib : HnswLib F S) (hlib : lib.Sound) (config : HnswConfig)
    (ops : List (HnswAction F)) (hfit : Along (hnswStep lib config) (FilesFit lib) (.init F) ops)
    (as bs : List (HnswAction F)) (hops : ops = as ++ bs) (s : Similarity F)
    (hrun : run (hnswStep lib config) (.init F) as = some s) (inner : HnswInner F)
    (hinner : s.provider = some inner) : NamesEvents lib config inner := by
  subst hops
  have hmatches : s.Matches := run_invariant (fun _ _ _ => matches_step)
    (fun _ h => absurd h (by simp [Similarity.init])) hfit.left hrun
  exact namesEvents_of_matches hlib (hmatches inner hinner)

/-! ### Saves that are completed -/

/-- The process ends only between saves, cleaning up succeeds, and an empty index is not
saved over the graph files of an earlier one. -/
def WholeSaves (s : Similarity F) : HnswAction F → Prop
  | .exit => s.saving = none
  | .remove done => done = true
  | .save => ∀ inner, s.provider = some inner → inner.nextId = 0 →
    s.dir.data = .absent ∨ s.dir.graph = .absent
  | _ => True

/-- Nothing that would be loaded, or the files of one save. -/
def HnswDir.OneSave (dir : HnswDir F) : Prop :=
  dir.data = .absent ∨ dir.graph = .absent ∨ dir.mappings = .absent ∨
    ∃ inner : HnswInner F, inner.Matches ∧ dir.data = .dump inner.index ∧
      dir.graph = .dump inner.index ∧
      dir.mappings = .written inner.usizeToEventId inner.eventIdToStreamId

/-- The graph files are those of the index; an empty one has none. -/
def HnswDir.Dumped (dir : HnswDir F) (inner : HnswInner F) : Prop :=
  if inner.nextId = 0 then dir.data = .absent ∨ dir.graph = .absent
  else dir.data = .dump inner.index ∧ dir.graph = .dump inner.index

def HnswDir.Removed (dir : HnswDir F) : HnswFile → Prop
  | .data => dir.data = .absent
  | .graph => dir.graph = .absent
  | .mappings => dir.mappings = .absent

/-- What a save under way has done to the directory. -/
def DirInv (s : Similarity F) : Prop :=
  match s.saving with
  | none => s.dir.OneSave
  | some (.dumping data graph) => ∃ inner, s.provider = some inner ∧ inner.nextId ≠ 0 ∧
    (data = true → s.dir.data = .dump inner.index) ∧
    (graph = true → s.dir.graph = .dump inner.index)
  | some .dumped => ∃ inner, s.provider = some inner ∧ s.dir.Dumped inner
  | some .created => ∃ inner, s.provider = some inner ∧ s.dir.Dumped inner
  | some (.cleaning file rest) => s.provider ≠ none ∧
    ∀ f, f = file ∨ f ∈ rest ∨ s.dir.Removed f

theorem removed_remove {dir : HnswDir F} {file f : HnswFile} (h : f = file ∨ dir.Removed f) :
    (dir.remove file).Removed f := by
  rcases h with rfl | h
  · cases f <;> rfl
  · cases file <;> cases f <;> first | rfl | exact h

/-- The files of one save fit, and so do files that are not all there. -/
theorem HnswDir.OneSave.fits {dir : HnswDir F} (hlib : lib.Sound) (h : dir.OneSave) :
    dir.Fits lib := by
  intro hexist inner hload p hp
  rw [filesExist, Bool.and_eq_true, Bool.and_eq_true] at hexist
  obtain ⟨⟨hdata, hgraph⟩, hmappings⟩ := hexist
  rcases h with h | h | h | ⟨saved, hmatches, hd, hg, hm⟩
  · rw [h] at hdata
    exact absurd hdata Bool.false_ne_true
  · rw [h] at hgraph
    exact absurd hgraph Bool.false_ne_true
  · rw [h] at hmappings
    exact absurd hmappings Bool.false_ne_true
  · rw [loadInner, hd, hg, hm, hlib.load_dump] at hload
    obtain rfl := Option.some_inj.mp hload
    exact hmatches.named p hp

theorem dirInv_init : DirInv (.init F) := Or.inl rfl

theorem dirInv_cleanRest {rest : List HnswFile} {s : Similarity F} (hprovider : s.provider ≠ none)
    (h : ∀ f, f ∈ rest ∨ s.dir.Removed f) : DirInv { s with saving := cleanRest rest } := by
  cases rest with
  | nil => exact .inl ((h .data).resolve_left List.not_mem_nil)
  | cons file rest =>
    refine ⟨hprovider, fun f => ?_⟩
    rcases h f with hf | hf
    · exact (List.mem_cons.mp hf).imp_right .inl
    · exact .inr (.inr hf)

theorem dirInv_failed {saving : Saving} (h : DirInv s) (hprovider : s.provider = some inner)
    (hsaving : s.saving = some saving) (hwriting : ∀ file rest, saving ≠ .cleaning file rest)
    (hempty : inner.nextId = 0) : s.dir.OneSave := by
  rw [DirInv, hsaving] at h
  cases saving with
  | dumping data graph =>
    obtain ⟨_, heq, hnonempty, -⟩ := h
    obtain rfl := Option.some_inj.mp (hprovider.symm.trans heq)
    exact absurd hempty hnonempty
  | dumped | created =>
    obtain ⟨_, heq, hdumped⟩ := h
    obtain rfl := Option.some_inj.mp (hprovider.symm.trans heq)
    rw [HnswDir.Dumped, if_pos hempty] at hdumped
    exact hdumped.imp_right .inl
  | cleaning file rest => exact absurd rfl (hwriting file rest)

/-- The last write of a save leaves the files of one save. -/
theorem HnswDir.Dumped.oneSave {dir : HnswDir F} (hmatches : inner.Matches) (h : dir.Dumped inner) :
    HnswDir.OneSave { dir with mappings := mappingsOf inner } := by
  rw [Dumped] at h
  split at h
  · exact h.imp_right .inl
  · rename_i hnonempty
    refine .inr (.inr (.inr ⟨inner, hmatches, h.1, h.2, ?_⟩))
    rw [mappingsOf, if_neg hnonempty]

/-- Without a provider no save is under way. -/
theorem saving_of_none (h : DirInv s) (hnone : s.provider = none) : s.saving = none := by
  rcases hsaving : s.saving with _ | saving
  · rfl
  · rw [DirInv, hsaving] at h
    cases saving with
    | cleaning file rest => exact absurd hnone h.1
    | dumping | dumped | created =>
      obtain ⟨_, heq, -⟩ := h
      exact absurd (hnone.symm.trans heq) (by simp)

theorem dirInv_step (hmatches : s.Matches) (h : DirInv s) (ha : WholeSaves s a)
    (hstep : hnswStep lib config s a = some s') : DirInv s' := by
  cases hnswTaken_of_step hstep with
  | reopened hnone =>
    have hsaving := saving_of_none h hnone
    rw [DirInv, hsaving] at h
    simpa only [DirInv, hsaving] using h
  | refused => exact h
  | indexed _ hsaving =>
    rw [DirInv, hsaving] at h
    simpa only [DirInv, hsaving] using h
  | @begun inner hprovider =>
    by_cases hempty : inner.nextId = 0
    · simp only [DirInv, if_pos hempty]
      refine ⟨inner, hprovider, ?_⟩
      rw [HnswDir.Dumped, if_pos hempty]
      exact ha inner hprovider hempty
    · simp only [DirInv, if_neg hempty]
      exact ⟨inner, hprovider, hempty, fun h => absurd h Bool.false_ne_true,
        fun h => absurd h Bool.false_ne_true⟩
  | @wroteData inner whole data graph hprovider hsaving =>
    rw [DirInv, hsaving] at h
    obtain ⟨_, heq, hnonempty, -, hgraph⟩ := h
    obtain rfl := Option.some_inj.mp (hprovider.symm.trans heq)
    exact ⟨inner, hprovider, hnonempty, fun hwhole => if_pos hwhole, hgraph⟩
  | @wroteGraph inner whole data graph hprovider hsaving =>
    rw [DirInv, hsaving] at h
    obtain ⟨_, heq, hnonempty, hdata, -⟩ := h
    obtain rfl := Option.some_inj.mp (hprovider.symm.trans heq)
    exact ⟨inner, hprovider, hnonempty, hdata, fun hwhole => if_pos hwhole⟩
  | dumped hsaving =>
    rw [DirInv, hsaving] at h
    obtain ⟨inner, hprovider, hnonempty, hdata, hgraph⟩ := h
    refine ⟨inner, hprovider, ?_⟩
    rw [HnswDir.Dumped, if_neg hnonempty]
    exact ⟨hdata rfl, hgraph rfl⟩
  | created hsaving =>
    rw [DirInv, hsaving] at h
    exact h
  | @saved inner hprovider hsaving =>
    rw [DirInv, hsaving] at h
    obtain ⟨_, heq, hdumped⟩ := h
    obtain rfl := Option.some_inj.mp (hprovider.symm.trans heq)
    exact hdumped.oneSave (hmatches inner hprovider)
  | @failed inner saving hprovider hsaving hwriting =>
    by_cases hempty : inner.nextId = 0
    · simp only [DirInv, if_pos hempty]
      exact dirInv_failed h hprovider hsaving hwriting hempty
    · simp only [DirInv, if_neg hempty]
      refine ⟨fun hnone => absurd (hnone.symm.trans hprovider) (by simp), fun f => ?_⟩
      cases f <;> simp
  | @removed done file rest hsaving =>
    rw [DirInv, hsaving] at h
    obtain rfl : done = true := ha
    refine dirInv_cleanRest (s := { s with dir := s.dir.remove file }) h.1 fun f => ?_
    rcases h.2 f with hf | hf | hf
    · exact .inr (removed_remove (.inl hf))
    · exact .inl hf
    · exact .inr (removed_remove (.inr hf))
  | ended =>
    have hsaving : s.saving = none := ha
    rw [DirInv, hsaving] at h
    exact h

/-- **When every save is completed**, the files that are loaded together fit. -/
theorem filesFit_of_wholeSaves (hlib : lib.Sound) {ops : List (HnswAction F)}
    (hwhole : Along (hnswStep lib config) WholeSaves (.init F) ops) :
    Along (hnswStep lib config) (FilesFit lib) (.init F) ops := by
  have hfits : ∀ s a, DirInv s → FilesFit lib s a := by
    intro s a hdir
    cases a with
    | reopen =>
      intro hnone
      rw [DirInv, saving_of_none hdir hnone] at hdir
      exact hdir.fits hlib
    | _ => trivial
  rw [along_iff]
  rintro as a bs s rfl hrun
  have hinv := run_invariant
    (I := fun s => s.Matches ∧ DirInv s) (fun s a s' hs ha hstep =>
      ⟨matches_step hs.1 (hfits s a hs.2) hstep, dirInv_step hs.1 hs.2 ha hstep⟩)
    ⟨fun _ h => absurd h (by simp [Similarity.init]), dirInv_init⟩ hwhole.left hrun
  exact hfits s a hinv.2

/-! ### A save that is cut off -/

/-- A graph library for small runs: only the files of one dump load, and a search returns
every point. -/
def plainHnsw : HnswLib ℕ ℕ where
  load
    | .dump points, .dump points' =>
      if points = points' then some points else none
    | _, _ => none
  search points _ _ _ := points.map fun p => ⟨p, 0⟩

theorem plainHnsw_sound : plainHnsw.Sound where
  load_dump _ := if_pos rfl
  search_mem points _ _ _ n hn := by
    obtain ⟨p, hp, rfl⟩ := List.mem_map.mp hn
    exact hp

/-- The event that is the hash of one byte. -/
def indexedEvent (b : UInt8) : EventId := plainDeps.hash [b]

/-- `save_to_disk` up to the creation of `mappings.bin`. -/
def dumpGraph : List (HnswAction ℕ) := [.save, .writeData true, .writeGraph true, .dumped]

theorem similarity_hits_name_events_saved : ∃ inner : HnswInner ℕ,
    inner.index.length = 2 ∧ NamesEvents plainHnsw ⟨1, 50, 2⟩ inner := by
  let ops : List (HnswAction ℕ) := [.reopen, .index (indexedEvent 0) none [0]] ++ dumpGraph ++
    [.createMappings, .writeMappings, .exit, .reopen, .index (indexedEvent 1) (some "s") [1]]
  have hwhole : Along (hnswStep plainHnsw ⟨1, 50, 2⟩) WholeSaves (.init ℕ) ops := by
    refine along_cons trivial rfl (along_cons trivial rfl (along_cons ?_ rfl ?_))
    · rintro inner heq hempty
      obtain rfl := Option.some_inj.mp heq
      exact absurd hempty (by decide)
    · refine along_cons trivial rfl (along_cons trivial rfl ?_)
      refine along_cons trivial rfl (along_cons trivial rfl ?_)
      refine along_cons trivial rfl (along_cons rfl rfl ?_)
      exact along_cons trivial rfl (along_cons trivial rfl trivial)
  refine ⟨_, ?_, similarity_hits_name_events plainHnsw plainHnsw_sound ⟨1, 50, 2⟩ ops
    (filesFit_of_wholeSaves plainHnsw_sound hwhole) ops [] (List.append_nil _).symm _ rfl _ rfl⟩
  rfl

/-- The process ends after the graph files are written and before `mappings.bin` is.
The graph that is loaded then has a point that the list does not have; its number is
given to the next vector, and hits at the point name that vector's event. -/
theorem number_given_twice : ¬ ∀ (F S : Type) (lib : HnswLib F S) (_ : lib.Sound)
    (config : HnswConfig) (ops : List (HnswAction F)) (s : Similarity F) (inner : HnswInner F)
    (_ : run (hnswStep lib config) (.init F) ops = some s) (_ : s.provider = some inner),
    NamesEvents lib config inner := by
  intro h
  let ops : List (HnswAction ℕ) := [.reopen, .index (indexedEvent 0) none [0]] ++ dumpGraph ++
    [.createMappings, .writeMappings, .index (indexedEvent 1) none [1]] ++ dumpGraph ++
    [.exit, .reopen, .index (indexedEvent 2) none [2]]
  obtain ⟨ns, hsub, -, hhits⟩ := (h ℕ ℕ plainHnsw plainHnsw_sound ⟨1, 50, 2⟩ ops _ _ rfl rfl).hits
    ⟨[0], 3, none⟩ _ rfl
  -- three points and three hits
  have hlength := congrArg List.length hhits
  rw [List.length_map] at hlength
  obtain rfl := hsub.eq_of_length hlength.symm
  exact absurd (congrArg (List.map SimilarityHit.eventId) hhits) (by decide)

end Fossic
