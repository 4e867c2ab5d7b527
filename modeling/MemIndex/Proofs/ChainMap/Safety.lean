import MemIndex.ChainMap.Scan
import MemIndex.Proofs.ChainMap.Readings

/- Nothing that can be asked of chained maps and of the walks through them ends in a fault, but for
   want of room in a store. No chain is endless, no slot is read that holds nothing, and no counter
   goes below zero. The hash function and the comparison of keys may answer anything. -/
namespace MemIndex.ChainMap

variable {K V : Type}

inductive Query where
  | isEmpty
  | bucketCount
  | isResizing
  | stats
  | listing
  | scan (cursor : UInt64)
  | agrees (other : Nat)

/-- Maps, and walks that have been begun on them, which read a map as it was then. -/
structure Session (K V : Type) where
  maps : List (ChainMap K V)
  walks : List (Walk K V)

def Session.empty : Session K V := ⟨[], []⟩

inductive Request (K V : Type) where
  | make (config : Config) (hash : K → UInt64)
  | copy (number : Nat)
  | operate (number : Nat) (op : Op K V)
  | ask (number : Nat) (query : Query)
  | walk (number : Nat)
  | fork (number : Nat)
  | next (number : Nat)

inductive Reply (K V : Type) where
  | plain (answer : Answer K V)
  | refused (error : ConfigError)
  | stats (stats : Stats)
  | piece (cursor : UInt64) (batch : List (K × V))
  | entry (pair : Option (K × V))

section Running

variable [BEq K] [BEq V]

def Query.run (maps : List (ChainMap K V)) (map : ChainMap K V) :
    Query → Except Fault (Reply K V)
  | .isEmpty => return .plain (.truth map.isEmpty)
  | .bucketCount => return .plain (.count map.bucketCount)
  | .isResizing => return .plain (.truth map.isResizing)
  | .stats => do return .stats (← map.stats)
  | .listing => do return .plain (.pairs (← map.listing))
  | .scan cursor => do
    let (next, batch) ← map.scan cursor
    return .piece next batch
  | .agrees other =>
    match maps[other]? with
    | none => return .plain .done
    | some other => do return .plain (.truth (← map.agrees other))

/-- Maps and walks are numbered in the order in which they were begun. -/
def Request.run : Request K V → Session K V → Except Fault (Reply K V × Session K V)
  | .make config hash, session =>
    match ofConfig config hash with
    | .ok map => return (.plain .done, { session with maps := session.maps ++ [map] })
    | .error error => return (.refused error, session)
  | .copy number, session =>
    let copied := (session.maps[number]?.map ChainMap.copy).toList
    return (.plain .done, { session with maps := session.maps ++ copied })
  | .operate number op, session =>
    match session.maps[number]? with
    | none => return (.plain .done, session)
    | some map => do
      let (answer, map) ← op.run map
      return (.plain answer, { session with maps := session.maps.set number map })
  | .ask number query, session =>
    match session.maps[number]? with
    | none => return (.plain .done, session)
    | some map => do return (← query.run session.maps map, session)
  | .walk number, session =>
    match session.maps[number]? with
    | none => return (.plain .done, session)
    | some map => do
      let walked ← map.walk
      let maps := session.maps.set number walked.state
      return (.plain .done, ⟨maps, session.walks ++ [walked.answer]⟩)
  | .fork number, session =>
    return (.plain .done, { session with walks := session.walks ++ session.walks[number]?.toList })
  | .next number, session =>
    match session.walks[number]? with
    | none => return (.plain .done, session)
    | some reader => do
      let (pair, later) ← reader.next
      return (.entry pair, { session with walks := session.walks.set number later })

end Running

def Op.insertions : Op K V → Nat
  | .insert _ _ => 1
  | .extend pairs => pairs.length
  | .ofList pairs => pairs.length
  | _ => 0

def Request.insertions : Request K V → Nat
  | .operate _ op => op.insertions
  | _ => 0

def Scarce (insertions : Nat) : Prop := Arena.maxSlots < insertions

theorem scarce_later (m n : Nat) (le : m ≤ n) (scarce : Scarce m) : Scarce n :=
  Nat.lt_of_lt_of_le scarce le

namespace Plain

variable {p : Plain K V} {n : Nat}

theorem length_upkeep (tidy : p.Tidy) : p.upkeep.1.entries.length = p.entries.length :=
  (resized_upkeep tidy).perm.length_eq

theorem length_relocate (tidy : p.Tidy) (steps : Nat) :
    (p.relocate steps).1.entries.length = p.entries.length :=
  (relocate_perm tidy steps).length_eq

theorem pace_moves (tidy : p.Tidy) : p.config.pace ≠ .fixed 0 := by
  obtain ⟨given, valid, rounded⟩ := tidy.config
  rw [rounded]
  exact ((Config.valid_iff given).mp valid).2.2.2

theorem stride_positive (tidy : p.Tidy) : 0 < p.stride := by
  have positive := active_positive tidy
  unfold stride
  cases pace : p.config.pace with
  | fixed steps =>
    change 0 < steps
    apply Nat.pos_of_ne_zero
    rintro rfl
    exact pace_moves tidy pace
  | full => exact positive
  | auto =>
    have other : 0 < (p.moving.map (·.2.length)).getD p.active.length := by
      cases moving : p.moving with
      | none => exact positive
      | some state => exact target_positive tidy moving
    -- Both sizes are positive, so the factor is, and the division rounds up.
    have factor := Nat.div_pos (Nat.le_trans (Nat.min_le_left _ _) (Nat.le_max_left
      p.active.length ((p.moving.map (·.2.length)).getD p.active.length)))
      (Nat.lt_min.mpr ⟨positive, other⟩)
    exact Nat.div_pos (by omega) factor

structure Small (p : Plain K V) (insertions : Nat) : Prop where
  tidy : p.Tidy
  few : p.entries.length ≤ insertions

theorem blank_small {given : Config} (valid : given.Valid) (hash : K → UInt64) :
    (blank given.rounded hash : Plain K V).Small n := by
  refine ⟨blank_tidy valid hash, ?_⟩
  rw [entries_blank]
  exact Nat.zero_le n

variable [BEq K]

theorem length_replace (key : K) (value : V) :
    (p.replace key value).entries.length = p.entries.length := by
  cases found : p.find? key with
  | none => rw [replace_absent found]
  | some pair =>
    have replaced := (replace_perm found value).length_eq
    have discarded := (discard_perm found).length_eq
    rw [List.length_cons] at replaced discarded
    exact replaced.trans discarded

theorem length_discard_le (key : K) : (p.discard key).entries.length ≤ p.entries.length := by
  cases found : p.find? key with
  | none => rw [discard_absent found]
  | some pair =>
    have discarded := (discard_perm found).length_eq
    rw [List.length_cons] at discarded
    omega

theorem insert_small (small : p.Small n) (key : K) (value : V) :
    Safe (Scarce (n + 1)) (fun result => result.2.Small (n + 1)) (p.insert key value) := by
  have few := small.few
  have same := length_upkeep small.tidy
  have upkept := (resized_upkeep small.tidy).tidy
  rw [insert]
  cases found : p.upkeep.1.find? key with
  | some pair =>
    refine ⟨replace_tidy upkept key value, ?_⟩
    change (p.upkeep.1.replace key value).entries.length ≤ n + 1
    rw [length_replace, same]
    exact Nat.le_add_right_of_le few
  | none =>
    by_cases room : p.upkeep.1.entries.length < Arena.maxSlots
    · simp only [if_pos room]
      refine ⟨put_tidy upkept key value, ?_⟩
      have stored := (put_perm upkept key value).length_eq
      rw [List.length_cons, same] at stored
      exact stored.trans_le (Nat.succ_le_succ few)
    · simp only [if_neg room]
      refine ⟨rfl, ?_⟩
      unfold Scarce
      omega

theorem insertAll_small (small : p.Small n) (pairs : List (K × V)) :
    Safe (Scarce (n + pairs.length)) (fun q => q.Small (n + pairs.length)) (p.insertAll pairs) := by
  induction pairs generalizing p n with
  | nil => exact small
  | cons pair rest ih =>
    rw [List.length_cons, Nat.add_comm rest.length, ← Nat.add_assoc, insertAll, List.foldlM_cons,
      bind_assoc]
    apply safe_bind (insert_small small pair.1 pair.2) (scarce_later _ _ (Nat.le_add_right _ _))
    intro one after
    exact ih after

theorem plainly_small (small : p.Small n) (op : Op K V) :
    Safe (Scarce (n + op.insertions))
      (fun result => result.2.entries.length ≤ n + op.insertions) (op.plainly p) := by
  have few := small.few
  have upkept : p.upkeep.1.entries.length ≤ n := by
    rw [length_upkeep small.tidy]
    exact few
  have settled : p.settle.1.entries.length ≤ n := by
    rw [settle, length_relocate small.tidy]
    exact few
  cases op with
  | insert key value => exact safe_bind (insert_small small key value) id fun _ after => after.few
  | get key | getEntry key | contains key => exact upkept
  | replace key value => exact (length_replace key value).trans_le upkept
  | remove key | erase key => exact (length_discard_le key).trans upkept
  | extend pairs => exact safe_bind (insertAll_small small pairs) id fun _ after => after.few
  | ofList pairs =>
    have start : (blank _ p.hash : Plain K V).Small n := blank_small Config.default_valid p.hash
    exact safe_bind (insertAll_small start pairs) id fun _ after => after.few
  | clear =>
    change p.clear.entries.length ≤ n
    rw [entries_clear]
    exact Nat.zero_le n
  | rehash buckets =>
    change (p.startResize.1.relocate buckets).1.entries.length ≤ n
    rw [length_relocate (startResize_tidy small.tidy), entries_startResize]
    exact few
  | settle | toList | keys | values => exact settled
  | peek key | count | copy => exact few

end Plain

section Maps

def Modest (insertions : Nat) (map : ChainMap K V) : Prop :=
  ∃ p : Plain K V, Depicts map p ∧ p.entries.length ≤ insertions

structure Going (map : ChainMap K V) : Prop where
  size : ∃ k, map.active.buckets = 2 ^ k
  strides : ∃ begun events steps, map.startResize = .ok (begun, events) ∧
    begun.stride = .ok steps ∧ 0 < steps

variable {map other : ChainMap K V} {n : Nat}

theorem going_of_depicts {p : Plain K V} (depicts : Depicts map p) : map.Going := by
  obtain ⟨begun, started, between⟩ := startResize_refines depicts.represents depicts.tidy
  have tidy := Plain.startResize_tidy depicts.tidy
  refine ⟨?_, begun, _, _, started, stride_refines between tidy, Plain.stride_positive tidy⟩
  rw [(sizes_of_represents depicts.represents).1]
  exact depicts.tidy.size

theorem agrees_depicts [BEq K] [BEq V] {p q : Plain K V} (depicts : Depicts map p)
    (others : Depicts other q) : ∃ same, map.agrees other = .ok same := by
  have listed := listing_refines depicts.represents
  have peeked := peek_depicts others
  unfold agrees
  by_cases lengths : (map.len != other.len) = true
  · exact ⟨false, if_pos lengths⟩
  · rw [if_neg lengths, listed, ok_bind]
    exact ⟨_, allM_ok fun pair _ => by simp only [peeked]; rfl⟩

variable [BEq K]

theorem op_safe (modest : Modest n map) (op : Op K V) :
    Safe (Scarce (n + op.insertions)) (fun result => Modest (n + op.insertions) result.2)
      (op.run map) := by
  obtain ⟨p, depicts, few⟩ := modest
  apply safe_of_matching (op_alike depicts op) (Plain.plainly_small ⟨depicts.tidy, few⟩ op)
  intro expected actual alike small
  exact ⟨expected.2, alike.2, small⟩

theorem query_safe [BEq V] {maps : List (ChainMap K V)} (sound : ∀ map ∈ maps, Modest n map)
    (modest : Modest n map) (query : Query) : ∃ reply, query.run maps map = .ok reply := by
  obtain ⟨p, depicts, -⟩ := modest
  cases query with
  | isEmpty | bucketCount | isResizing => exact ⟨_, rfl⟩
  | stats => exact ⟨_, by rw [Query.run, stats_refines depicts.represents]; rfl⟩
  | listing => exact ⟨_, by rw [Query.run, listing_refines depicts.represents]; rfl⟩
  | scan cursor =>
    exact ⟨_, by rw [Query.run, scan_refines depicts.represents depicts.tidy]; rfl⟩
  | agrees number =>
    rw [Query.run]
    cases found : maps[number]? with
    | none => exact ⟨_, rfl⟩
    | some other =>
      obtain ⟨q, others, -⟩ := sound other (List.mem_of_getElem? found)
      obtain ⟨same, compared⟩ := agrees_depicts depicts others
      exact ⟨_, by simp only [compared]; rfl⟩

end Maps

namespace Walk

def Steady (walk : Walk K V) : Prop := ∃ rows pending, walk.Stands rows pending

theorem next_steady {walk : Walk K V} (steady : walk.Steady) :
    ∃ pair later, walk.next = .ok (pair, later) ∧ later.Steady := by
  obtain ⟨rows, pending, stands⟩ := steady
  cases pending with
  | nil =>
    have ended : walk.remaining = 0 := stands.counted
    exact ⟨none, walk, by rw [next, if_pos ended]; rfl, rows, [], stands⟩
  | cons x pending =>
    obtain ⟨later, stepped, rest⟩ := next_ok stands
    exact ⟨_, later, stepped, rows, pending, rest⟩

end Walk

section Sessions

structure Session.Sound (insertions : Nat) (session : Session K V) : Prop where
  maps : ∀ map ∈ session.maps, Modest insertions map
  walks : ∀ walk ∈ session.walks, walk.Steady

variable {session : Session K V} {n : Nat}

theorem modest_later {map : ChainMap K V} {m : Nat} (le : n ≤ m) (modest : Modest n map) :
    Modest m map := by
  obtain ⟨p, depicts, few⟩ := modest
  exact ⟨p, depicts, few.trans le⟩

theorem maps_set {m : Nat} (le : n ≤ m) (maps : ∀ map ∈ session.maps, Modest n map) {number : Nat}
    {next : ChainMap K V} (modest : Modest m next) :
    ∀ map ∈ session.maps.set number next, Modest m map := by
  intro map member
  rcases List.mem_or_eq_of_mem_set member with old | rfl
  · exact modest_later le (maps map old)
  · exact modest

theorem made_sound (sound : session.Sound n) (config : Config) (hash : K → UInt64)
    {map : ChainMap K V} (made : ofConfig config hash = .ok map) :
    Session.Sound n { session with maps := session.maps ++ [map] } := by
  refine ⟨?_, sound.walks⟩
  intro other member
  rcases List.mem_append.mp member with old | new
  · exact sound.maps other old
  · obtain ⟨valid, rfl⟩ := made_of_ofConfig made
    rw [List.mem_singleton.mp new]
    refine ⟨_, build_depicts valid hash, ?_⟩
    rw [Plain.entries_blank]
    exact Nat.zero_le n

variable [BEq K] [BEq V]

theorem request_safe (request : Request K V) (n : Nat) (session : Session K V)
    (sound : session.Sound n) : Safe (Scarce (n + request.insertions))
      (fun result => result.2.Sound (n + request.insertions)) (request.run session) := by
  cases request with
  | make config hash =>
    rw [Request.run]
    cases made : (ofConfig config hash : Except ConfigError (ChainMap K V)) with
    | error error => exact sound
    | ok map => exact made_sound sound config hash made
  | copy number =>
    refine ⟨?_, sound.walks⟩
    intro map member
    rcases List.mem_append.mp member with old | new
    · exact sound.maps map old
    · obtain ⟨first, found, rfl⟩ := Option.map_eq_some_iff.mp (Option.mem_toList.mp new)
      obtain ⟨p, depicts, few⟩ := sound.maps first (List.mem_of_getElem? found)
      exact ⟨p, copy_depicts depicts, few⟩
  | operate number op =>
    rw [Request.run]
    cases found : session.maps[number]? with
    | none => exact ⟨fun map member => modest_later (Nat.le_add_right _ _) (sound.maps map member),
        sound.walks⟩
    | some map =>
      apply safe_bind (op_safe (sound.maps map (List.mem_of_getElem? found)) op) id
      intro result after
      exact ⟨maps_set (Nat.le_add_right _ _) sound.maps after, sound.walks⟩
  | ask number query =>
    rw [Request.run]
    cases found : session.maps[number]? with
    | none => exact sound
    | some map =>
      obtain ⟨reply, done⟩ :=
        query_safe sound.maps (sound.maps map (List.mem_of_getElem? found)) query
      simp only [done, ok_bind]
      exact sound
  | walk number =>
    rw [Request.run]
    cases found : session.maps[number]? with
    | none => exact sound
    | some map =>
      obtain ⟨p, depicts, few⟩ := sound.maps map (List.mem_of_getElem? found)
      obtain ⟨walked, active, done, -, stands, -, after⟩ :=
        walk_stands depicts.represents depicts.tidy
      have tidy := Plain.relocate_tidy depicts.tidy p.active.length
      have settled : p.settle.1.entries.length ≤ n := by
        rw [Plain.settle, Plain.length_relocate depicts.tidy]
        exact few
      simp only [done, ok_bind]
      refine ⟨maps_set (Nat.le_refl n) sound.maps ⟨_, ⟨after, tidy⟩, settled⟩, ?_⟩
      intro walk member
      rcases List.mem_append.mp member with old | new
      · exact sound.walks walk old
      · rw [List.mem_singleton.mp new]
        exact ⟨active, _, stands⟩
  | fork number =>
    refine ⟨sound.maps, ?_⟩
    intro walk member
    rcases List.mem_append.mp member with old | new
    · exact sound.walks walk old
    · exact sound.walks walk (List.mem_of_getElem? (Option.mem_toList.mp new))
  | next number =>
    rw [Request.run]
    cases found : session.walks[number]? with
    | none => exact sound
    | some reader =>
      obtain ⟨pair, later, stepped, steady⟩ :=
        Walk.next_steady (sound.walks reader (List.mem_of_getElem? found))
      simp only [stepped, ok_bind]
      refine ⟨sound.maps, ?_⟩
      intro other member
      rcases List.mem_or_eq_of_mem_set member with old | rfl
      · exact sound.walks other old
      · exact steady

/-- With any settings, any hash functions and any comparison of keys, all requests end well, and in
every map that is left an operation brings a resize forward. Only a store may run out of slots,
after more insertions than it has room for. -/
theorem requests_safe (requests : List (Request K V)) :
    (∃ result, runAll Request.run requests Session.empty = .ok result ∧
      ∀ map ∈ result.2.maps, map.Going) ∨
    (runAll Request.run requests (Session.empty : Session K V) = .error .exhausted ∧
      Arena.maxSlots < (requests.map Request.insertions).sum) := by
  have start : Session.Sound 0 (Session.empty : Session K V) := by
    constructor
    · intro map member
      cases member
    · intro walk member
      cases member
  have safe := runAll_safe scarce_later request_safe requests start
  rw [Nat.zero_add] at safe
  rcases safe_cases safe with ⟨result, done, sound⟩ | failed
  · refine Or.inl ⟨result, done, fun map member => ?_⟩
    obtain ⟨p, depicts, -⟩ := sound.maps map member
    exact going_of_depicts depicts
  · exact Or.inr failed

end Sessions

end MemIndex.ChainMap
