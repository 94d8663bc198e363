/-
The stream registry: `declare_stream`, `stream_exists` and `streams`.

A declaration whose id is taken is ignored, so the table holds the first valid declaration of
each id, next to `_fossic/system` (`run_firstDeclared`).  `streams` leaves out the system streams
with `NOT LIKE '_fossic/%'`, and the `_` of that pattern is any character.

* `systemLike_iff` — the ids that the pattern takes;
* `streams_exact_iff` — the listing is the user registry exactly when no declared id outside
  `_fossic/` is one of them.
-/
import Fossic.CceCanonical
import Fossic.SqliteLike
import Fossic.StoreRuns

namespace Fossic

open KeySort Transition SqliteLike

structure StreamInfo where
  id : String
  declaredBy : String
  declaredAt : Int64
  description : Option String

/-- The columns that `streams_impl` selects. -/
def StreamRow.info (row : StreamRow) : StreamInfo where
  id := row.id
  declaredBy := row.declaredBy
  declaredAt := row.declaredAt
  description := row.description

/-- `id LIKE '_fossic/%'` -/
def likeSystem (id : String) : Bool := like "_fossic/%".toList id.toList

/-- Ids in the order of their UTF-8 bytes, which is that of `ORDER BY id`. -/
def idKey (id : String) : List ℕ := byteOrder (utf8 id)

def streamsImpl (db : Db) : List StreamInfo :=
  (sortBy (fun row => idKey row.id) (db.streams.filter fun row => !likeSystem row.id)).map
    StreamRow.info

/-! ### The user registry -/

/-- What a call declares, if the id is valid. -/
def StoreOp.declaration (d : Deps) : StoreOp → Option StreamRow
  | .declareStream streamId declaredBy description now =>
    if (validateStreamId d.isAlphanumeric streamId).isOk then
      some ⟨streamId, declaredBy, now, description⟩
    else none
  | _ => none

/-- The valid declarations of a run, in order. -/
def declarations (d : Deps) (ops : List StoreOp) : List StreamRow :=
  ops.filterMap (StoreOp.declaration d)

/-- The listing is sorted by id, without repetition, and has the first declaration of each id
that does not start with `_fossic/`. -/
structure ListsUserStreams (rows : List StreamRow) (listing : List StreamInfo) : Prop where
  sorted : listing.Pairwise fun s t => idKey s.id < idKey t.id
  listed : ∀ info, info ∈ listing ↔ ∃ row, rows.find? (fun r => r.id = info.id) = some row ∧
    startsWith row.id "_fossic/" = false ∧ info = row.info

/-- One character, and then `fossic/` in upper or lower case. -/
def SystemLike (id : String) : Prop :=
  ∃ x name rest, id.toList = x :: (name ++ rest) ∧
    name.map Char.toLower = "fossic/".toList

theorem systemLike_iff {id : String} : likeSystem id = true ↔ SystemLike id := by
  have hpattern : "_fossic/%".toList = "_fossic/".toList ++ ['%'] := rfl
  have hname : "_fossic/".toList = '_' :: "fossic/".toList := rfl
  rw [likeSystem, hpattern, like_percent (by decide), hname, SystemLike]
  constructor
  · rintro ⟨a, rest, hid, ha⟩
    obtain ⟨x, name, -, hrest, rfl⟩ := List.forall₂_cons_left_iff.mp ha
    exact ⟨x, name, rest, hid, ((forall₂_standsFor_iff (by decide)).mp hrest).symm⟩
  · rintro ⟨x, name, rest, hid, hlower⟩
    refine ⟨x :: name, rest, hid, .cons (.inl rfl) ?_⟩
    exact (forall₂_standsFor_iff (by decide)).mpr hlower.symm

/-- A system stream is left out. -/
theorem systemLike_of_startsWith {id : String} (h : startsWith id "_fossic/" = true) :
    SystemLike id := by
  obtain ⟨rest, hrest⟩ := List.isPrefixOf_iff_prefix.mp h
  exact ⟨'_', "fossic/".toList, rest, hrest.symm, rfl⟩

/-! ### The table -/

variable {d : Deps} {db db' : Db} {rows : List StreamRow} {ops : List StoreOp}

/-- The table holds the first of the rows with each id. -/
structure FirstDeclared (rows : List StreamRow) (db : Db) : Prop where
  distinct : (db.streams.map (·.id)).Nodup
  first : ∀ id, db.streams.find? (fun r => r.id = id) = rows.find? fun r => r.id = id

theorem streamExists_iff {id : String} :
    db.streamExists id = true ↔ ∃ row ∈ db.streams, row.id = id := by
  rw [Db.streamExists, List.any_eq_true]
  simp only [beq_iff_eq]

theorem find?_eq_none_iff_id {id : String} :
    rows.find? (fun r => r.id = id) = none ↔ ∀ row ∈ rows, row.id ≠ id := by
  simp only [List.find?_eq_none, decide_eq_true_iff]

theorem FirstDeclared.streamExists_iff (h : FirstDeclared rows db) {id : String} :
    db.streamExists id = true ↔ ∃ row ∈ rows, row.id = id := by
  have hnone := @find?_eq_none_iff_id db.streams id
  rw [h.first, find?_eq_none_iff_id] at hnone
  have hneg := hnone.not
  push Not at hneg
  rw [Fossic.streamExists_iff, hneg]

theorem FirstDeclared.insertStream (h : FirstDeclared rows db) (row : StreamRow) :
    FirstDeclared (rows ++ [row]) (db.insertStream row) := by
  rw [Db.insertStream]
  split
  · -- the id is taken, so a row of before comes first
    rename_i htaken
    refine ⟨h.distinct, fun id => ?_⟩
    rw [List.find?_append, h.first]
    obtain ⟨other, hother, hid⟩ := h.streamExists_iff.mp htaken
    by_cases hrow : row.id = id
    · rcases hfind : rows.find? fun r => r.id = id with _ | first
      · exact absurd (hid.trans hrow) (find?_eq_none_iff_id.mp hfind other hother)
      · rw [hfind, Option.some_or]
    · have hlast : [row].find? (fun r => r.id = id) = none := by
        simpa using hrow
      rw [hlast, Option.or_none]
  · rename_i hfree
    refine ⟨?_, fun id => ?_⟩
    · rw [List.map_append, List.map_singleton, List.nodup_append]
      refine ⟨h.distinct, List.nodup_singleton _, fun id hid other hother => ?_⟩
      rw [List.mem_singleton.mp hother]
      rintro rfl
      obtain ⟨r, hr, hrow⟩ := List.mem_map.mp hid
      exact hfree (Fossic.streamExists_iff.mpr ⟨r, hr, hrow⟩)
    · rw [List.find?_append, List.find?_append, h.first]

theorem FirstDeclared.congr (hstreams : db'.streams = db.streams) (h : FirstDeclared rows db) :
    FirstDeclared rows db' := by
  refine ⟨?_, ?_⟩
  · rw [hstreams]
    exact h.distinct
  · rw [hstreams]
    exact h.first

/-- A row that is declared already is not added. -/
theorem FirstDeclared.insertStream_of_taken (h : FirstDeclared rows db) {row : StreamRow}
    (htaken : ∃ r ∈ rows, r.id = row.id) : db.insertStream row = db := by
  rw [Db.insertStream, if_pos (h.streamExists_iff.mpr htaken)]

/-- **A call** adds what it declares. -/
theorem exec_firstDeclared {op : StoreOp} (hsystem : ∃ r ∈ rows, r.id = SYSTEM_STREAM)
    (h : FirstDeclared rows db) :
    FirstDeclared (rows ++ (op.declaration d).toList) (exec d db op) := by
  cases op with
  | declareStream streamId declaredBy description now =>
    rw [exec, declareStreamImpl, StoreOp.declaration]
    cases validateStreamId d.isAlphanumeric streamId with
    | error e =>
      show FirstDeclared (rows ++ []) db
      rwa [List.append_nil]
    | ok u => exact h.insertStream _
  | write transforms call clock =>
    show FirstDeclared (rows ++ []) _
    rw [List.append_nil, exec]
    rcases hcall : call.execute d transforms clock db with e | ⟨outcomes, db'⟩
    · exact h
    · obtain ⟨added, hgrows, -⟩ := execute_grows hcall
      have hstreams : db'.streams = db.streams := by rw [hgrows.eq]
      exact h.congr hstreams
  | emit eventType payload indexedTags now =>
    show FirstDeclared (rows ++ []) _
    obtain ⟨added, hgrows⟩ := @emit_grows d eventType payload indexedTags now db
    rw [List.append_nil, exec]
    exact h.congr (by rw [hgrows.eq])
  | purge id confirm reason purgedBy purgedAtUs =>
    show FirstDeclared (rows ++ []) _
    rw [List.append_nil, exec]
    rcases hpurge : purgeEventImpl d id confirm reason purgedBy purgedAtUs db with e | db'
    · exact h
    · obtain ⟨-, original, -, -, purgedId, added, db₂, -, hgrows, -, rfl⟩ :=
        purgeEventImpl_spec hpurge
      refine h.congr ?_
      show db₂.streams = db.streams
      rw [hgrows.eq, h.insertStream_of_taken hsystem]

/-- The stream that `Store::open` declares. -/
def systemDeclaration (now : Int64) : StreamRow :=
  ⟨SYSTEM_STREAM, "fossic", now, some "Internal fossic system events"⟩

/-- **A run** leaves the first declaration of each id. -/
theorem run_firstDeclared {now : Int64}
    (hrun : run (storeStep d) (Db.bootstrap now) ops = some db) :
    FirstDeclared (systemDeclaration now :: declarations d ops) db := by
  have hfrom : ∀ {ops : List StoreOp} {rows : List StreamRow} {db₀ : Db},
      (∃ r ∈ rows, r.id = SYSTEM_STREAM) → FirstDeclared rows db₀ →
      run (storeStep d) db₀ ops = some db → FirstDeclared (rows ++ declarations d ops) db := by
    intro ops
    induction ops with
    | nil =>
      intro rows db₀ _ h hrun
      obtain rfl := Option.some_inj.mp hrun
      rwa [declarations, List.filterMap_nil, List.append_nil]
    | cons op ops ih =>
      intro rows db₀ hsystem h hrun
      obtain ⟨db₁, hstep, hrun⟩ := run_cons.mp hrun
      obtain rfl := Option.some_inj.mp hstep
      obtain ⟨r, hr, hid⟩ := hsystem
      have hrest := ih ⟨r, List.mem_append_left _ hr, hid⟩ (exec_firstDeclared ⟨r, hr, hid⟩ h) hrun
      rw [List.append_assoc] at hrest
      have hdeclared : declarations d (op :: ops)
          = (op.declaration d).toList ++ declarations d ops := by
        rw [declarations, List.filterMap_cons]
        cases op.declaration d <;> rfl
      rwa [hdeclared]
  refine hfrom ⟨_, List.mem_singleton_self _, rfl⟩ ⟨?_, fun _ => rfl⟩ hrun
  exact List.nodup_singleton _

/-! ### The listing -/

theorem idKey_inj {s t : String} (h : idKey s = idKey t) : s = t := utf8_inj (byteOrder_inj h)

theorem streamsImpl_sorted (h : FirstDeclared rows db) :
    (streamsImpl db).Pairwise fun s t => idKey s.id < idKey t.id := by
  rw [streamsImpl, List.pairwise_map]
  refine sortBy_strict ?_
  have hdistinct := h.distinct.sublist (List.Sublist.map (·.id)
    (@List.filter_sublist _ (fun row : StreamRow => !likeSystem row.id) db.streams))
  have hkeys := hdistinct.map (f := idKey) fun _ _ => idKey_inj
  rwa [List.map_map] at hkeys

/-- The rows of the table are the first of their ids. -/
theorem FirstDeclared.mem_iff (h : FirstDeclared rows db) {row : StreamRow} :
    row ∈ db.streams ↔ rows.find? (fun r => r.id = row.id) = some row := by
  rw [← h.first]
  constructor
  · intro hrow
    rcases hfind : db.streams.find? fun r => r.id = row.id with _ | first
    · exact absurd rfl (find?_eq_none_iff_id.mp hfind row hrow)
    · have hid : first.id = row.id := by simpa using List.find?_some hfind
      rw [hfind, List.inj_on_of_nodup_map h.distinct (List.mem_of_find?_eq_some hfind) hrow hid]
  · exact List.mem_of_find?_eq_some

theorem mem_streamsImpl (h : FirstDeclared rows db) {info : StreamInfo} :
    info ∈ streamsImpl db ↔ ∃ row, rows.find? (fun r => r.id = info.id) = some row ∧
      likeSystem row.id = false ∧ info = row.info := by
  rw [streamsImpl, List.mem_map]
  simp only [mem_sortBy, List.mem_filter, h.mem_iff, Bool.not_eq_true']
  constructor
  · rintro ⟨row, ⟨hfirst, hlike⟩, rfl⟩
    exact ⟨row, hfirst, hlike, rfl⟩
  · rintro ⟨row, hfirst, hlike, rfl⟩
    exact ⟨row, ⟨hfirst, hlike⟩, rfl⟩

/-- The declaration of `open` is not among those of users. -/
theorem find?_system {now : Int64} {id : String} (h : id ≠ SYSTEM_STREAM) :
    (systemDeclaration now :: rows).find? (fun r => r.id = id)
      = rows.find? fun r => r.id = id := by
  rw [List.find?_cons_of_neg]
  rw [decide_eq_true_iff]
  exact Ne.symm h

theorem startsWith_system : startsWith SYSTEM_STREAM "_fossic/" = true := by decide

/-- **The registry**: after every run of a store, `stream_exists` knows the declared ids and
`_fossic/system`; and `streams` lists the user registry exactly when no declared id outside
`_fossic/` looks like a system stream to the pattern. -/
theorem streams_exact_iff (d : Deps) (now : Int64) (ops : List StoreOp) (db : Db)
    (hrun : run (storeStep d) (Db.bootstrap now) ops = some db) :
    (ListsUserStreams (declarations d ops) (streamsImpl db) ∧
      ∀ id, db.streamExists id = true ↔
        id = SYSTEM_STREAM ∨ ∃ row ∈ declarations d ops, row.id = id) ↔
    ∀ row ∈ declarations d ops, SystemLike row.id → startsWith row.id "_fossic/" = true := by
  have h := run_firstDeclared hrun
  constructor
  · rintro ⟨hlists, -⟩ row hrow hlike
    by_contra hstarts
    rw [Bool.not_eq_true] at hstarts
    -- the first declaration of the id would be listed
    rcases hfind : (declarations d ops).find? fun r => r.id = row.id with _ | first
    · exact absurd rfl (find?_eq_none_iff_id.mp hfind row hrow)
    · have hid : first.id = row.id := by simpa using List.find?_some hfind
      rw [← hid] at hfind hstarts hlike
      have hlisted : first.info ∈ streamsImpl db :=
        (hlists.listed first.info).mpr ⟨first, hfind, hstarts, rfl⟩
      obtain ⟨other, -, hnot, hinfo⟩ := (mem_streamsImpl h).mp hlisted
      have hother : first.id = other.id := congrArg StreamInfo.id hinfo
      rw [← hother, systemLike_iff.mpr hlike] at hnot
      exact Bool.noConfusion hnot
  · intro hcond
    refine ⟨⟨streamsImpl_sorted h, fun info => ?_⟩, fun id => ?_⟩
    · rw [mem_streamsImpl h]
      constructor
      · rintro ⟨row, hfirst, hlike, rfl⟩
        have hstarts : startsWith row.id "_fossic/" = false := by
          rw [← Bool.not_eq_true]
          intro hstarts
          rw [systemLike_iff.mpr (systemLike_of_startsWith hstarts)] at hlike
          exact Bool.noConfusion hlike
        refine ⟨row, ?_, hstarts, rfl⟩
        rwa [← find?_system]
        rintro hid
        rw [show row.id = SYSTEM_STREAM from hid, startsWith_system] at hstarts
        exact Bool.noConfusion hstarts
      · rintro ⟨row, hfirst, hstarts, rfl⟩
        have hlike : likeSystem row.id = false := by
          rw [← Bool.not_eq_true, systemLike_iff]
          intro hlike
          rw [hcond row (List.mem_of_find?_eq_some hfirst) hlike] at hstarts
          exact Bool.noConfusion hstarts
        refine ⟨row, ?_, hlike, rfl⟩
        rwa [find?_system]
        intro hid
        rw [show row.id = SYSTEM_STREAM from hid, startsWith_system] at hstarts
        exact Bool.noConfusion hstarts
    · rw [h.streamExists_iff, List.exists_mem_cons_iff]
      exact or_congr_left eq_comm

/-- Two streams, one of them declared again, and a system stream. -/
def declareFour : List StoreOp :=
  [.declareStream "b" "t" none 1, .declareStream "a" "t" none 2,
    .declareStream "b" "u" none 3, .declareStream "_fossic/a" "t" none 4]

/-- No other declared id looks like that of a system stream. -/
theorem streams_exact_iff_four : ∃ db,
    run (storeStep plainDeps) (Db.bootstrap 0) declareFour = some db ∧
    (streamsImpl db).map (fun info => (info.id, info.declaredBy)) = [("a", "t"), ("b", "t")] ∧
    ListsUserStreams (declarations plainDeps declareFour) (streamsImpl db) := by
  have hcond : ∀ row ∈ declarations plainDeps declareFour,
      likeSystem row.id = true → startsWith row.id "_fossic/" = true := by decide
  exact ⟨_, rfl, by decide, ((streams_exact_iff plainDeps 0 _ _ rfl).mpr fun row hrow hlike =>
    hcond row hrow (systemLike_iff.mpr hlike)).1⟩

/-- A stream `xfossic/a` is declared and not listed. -/
theorem declared_stream_not_listed : ¬∀ (d : Deps) (now : Int64) (ops : List StoreOp) (db : Db),
    run (storeStep d) (Db.bootstrap now) ops = some db →
    ListsUserStreams (declarations d ops) (streamsImpl db) ∧
      ∀ id, db.streamExists id = true ↔
        id = SYSTEM_STREAM ∨ ∃ row ∈ declarations d ops, row.id = id := by
  intro h
  obtain ⟨⟨-, hlisted⟩, -⟩ := h plainDeps 0 [.declareStream "xfossic/a" "t" none 1] _ rfl
  have hmem := (hlisted ⟨"xfossic/a", "t", 1, none⟩).mpr
    ⟨⟨"xfossic/a", "t", 1, none⟩, rfl, by decide, rfl⟩
  have hlength : (streamsImpl (exec plainDeps (Db.bootstrap 0)
      (.declareStream "xfossic/a" "t" none 1))).length = 0 := by decide
  exact absurd hmem (List.eq_nil_of_length_eq_zero hlength ▸ List.not_mem_nil)

end Fossic
