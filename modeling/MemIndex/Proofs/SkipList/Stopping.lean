import MemIndex.Proofs.SkipList.Regularity

/- Where the ways down of a regular list stop, for a condition that holds of all keys up to some
   place in their order. A regular list says nothing of the levels above its top one, so its row is
   cut off there, and this row is what its links are computed from. -/
namespace MemIndex.SkipList

variable {K V γ : Type}

structure Proper [Ord K] (list : SkipList K V γ) (order : List Nat) : Prop where
  regular : Regular list order
  room : list.level < list.maxLevels
  limit : list.maxLevels ≤ levelLimit

def keyHolds (nodes : Arena (Node K V)) (holds : K → Bool) (slot : Nat) : Bool :=
  match keyAt nodes slot with
  | .ok key => holds key
  | .error _ => false

/-- The last node of a level whose key a condition holds of, or the head. -/
def lastHolding (nodes : Arena (Node K V)) (order : List Nat) (holds : K → Bool) (level : Nat) :
    Nat :=
  ((tallNodes nodes order level).filter (keyHolds nodes holds)).getLast?.getD head

def tower (nodes : Arena (Node K V)) (top slot : Nat) : Tower :=
  ⟨slot, min ((heightOf nodes slot).getD 0) (top + 1)⟩

def rowOf (nodes : Arena (Node K V)) (top : Nat) (order : List Nat) : List Tower :=
  ⟨head, top + 1⟩ :: order.map (tower nodes top)

section Rows

variable {nodes : Arena (Node K V)} {top level : Nat} {order : List Nat}

theorem map_slot_tower (order : List Nat) :
    (order.map (tower nodes top)).map Tower.slot = order := by
  rw [List.map_map]
  exact List.map_id order

theorem slots_rowOf : (rowOf nodes top order).map Tower.slot = head :: order := by
  rw [rowOf, List.map_cons, map_slot_tower]

theorem tower_tall (low : level ≤ top) (slot : Nat) : level < (tower nodes top slot).height ↔
    (heightOf nodes slot).any (fun height => level < height) = true := by
  unfold tower
  cases heightOf nodes slot with
  | none => simp
  | some height =>
    simp only [Option.getD_some, Option.any_some, decide_eq_true_eq]
    omega

theorem tall_rowOf (low : level ≤ top) (order : List Nat) :
    ((order.map (tower nodes top)).filter fun t => level < t.height).map Tower.slot =
      tallNodes nodes order level := by
  rw [List.filter_map, map_slot_tower, tallNodes]
  apply List.filter_congr
  intro slot _
  rw [Function.comp_apply, Bool.eq_iff_iff, decide_eq_true_eq]
  exact tower_tall low slot

theorem link_ext {a b : Link} (next : a.next = b.next) (span : a.span = b.span) : a = b := by
  cases a
  cases b
  cases next
  cases span
  rfl

theorem linkOf_of_linkAt {slot : Nat} {link : Link} (read : linkAt nodes slot level = .ok link) :
    linkOf nodes slot level = some link := by
  unfold linkAt Arena.read at read
  unfold linkOf
  cases held : nodes.get? slot with
  | none =>
    rw [held] at read
    cases read
  | some node =>
    simp only [held, ok_bind] at read
    rw [Option.bind_some]
    cases here : node.links[level]? with
    | none =>
      rw [here] at read
      cases read
    | some other =>
      rw [here] at read
      cases read
      rfl

theorem trail_next {slot : Nat} {links : List Link} (trail : Trail nodes level slot links)
    {names : List Nat} (next : links.map Link.next = names ++ [tail]) {pre post : List Nat}
    {here : Nat} (parts : slot :: names = pre ++ here :: post) : ∃ link,
      linkAt nodes here level = .ok link ∧ some link.next = (post ++ [tail]).head? := by
  induction trail generalizing names pre with
  | @last slot link read ended =>
    obtain ⟨rfl, -⟩ := List.append_inj' (show [] ++ [link.next] = names ++ [tail] from next) rfl
    cases pre with
    | nil =>
      obtain ⟨rfl, rfl⟩ := List.cons.inj parts
      exact ⟨link, read, congrArg some ended⟩
    | cons first pre => simp at parts
  | @more slot link links read ahead rest ih =>
    cases names with
    | nil =>
      cases rest <;> simp at next
    | cons name names =>
      obtain ⟨rfl, others⟩ := List.cons.inj next
      cases pre with
      | nil =>
        obtain ⟨rfl, rfl⟩ := List.cons.inj parts
        exact ⟨link, read, rfl⟩
      | cons first pre => exact ih others (List.cons.inj parts).2

theorem onward_next_eq (level : Nat) (towers : List Tower) : some (onward level towers).next =
    (((towers.filter fun t => level < t.height).map Tower.slot) ++ [tail]).head? := by
  induction towers with
  | nil => rfl
  | cons t rest ih =>
    unfold onward
    by_cases tall : level < t.height
    · rw [if_pos tall, List.filter_cons_of_pos (by simpa using tall)]
      rfl
    · rw [if_neg tall, List.filter_cons_of_neg (by simpa using tall)]
      exact ih

theorem tall_row (low : level ≤ top) (order : List Nat) :
    ((rowOf nodes top order).filter fun t => level < t.height).map Tower.slot =
      head :: tallNodes nodes order level := by
  rw [rowOf, List.filter_cons_of_pos (by simpa using Nat.lt_succ_of_le low), List.map_cons,
    tall_rowOf low]

theorem length_rowOf (nodes : Arena (Node K V)) (top : Nat) (order : List Nat) :
    (rowOf nodes top order).length = order.length + 1 := by
  simp [rowOf]

theorem keys_read {keys : List K} (read : order.mapM (keyAt nodes) = .ok keys) :
    order.map (keyAt nodes) = keys.map Except.ok := by
  induction order generalizing keys with
  | nil =>
    cases read
    rfl
  | cons slot rest ih =>
    rw [List.mapM_cons] at read
    obtain ⟨key, first, read⟩ := bind_eq_ok.mp read
    obtain ⟨others, later, read⟩ := bind_eq_ok.mp read
    cases read
    rw [List.map_cons, List.map_cons, first, ih later]

theorem keyHolds_eq {slot : Nat} {key : K} (read : keyAt nodes slot = .ok key)
    (holds : K → Bool) : keyHolds nodes holds slot = holds key := by
  rw [keyHolds, read]

end Rows

section Regularities

variable [Ord K] {list : SkipList K V γ} {order : List Nat}

theorem linked_rowOf (regular : Regular list order) :
    Linked list.nodes (rowOf list.nodes list.level order) := by
  intro pre t post parts level tall
  have low : level ≤ list.level := by
    have member : t ∈ rowOf list.nodes list.level order := by
      rw [parts]
      simp
    rcases List.mem_cons.mp member with rfl | inOrder
    · exact Nat.le_of_lt_succ tall
    · obtain ⟨slot, -, rfl⟩ := List.mem_map.mp inOrder
      exact Nat.le_of_lt_succ (Nat.lt_of_lt_of_le tall (Nat.min_le_right _ _))
  obtain ⟨⟨links, trail, next, -⟩, spans, -⟩ := regular.levels level low
  have names := @tall_row K V list.nodes _ _ low order
  rw [parts, List.filter_append, List.filter_cons_of_pos (by simpa using tall), List.map_append,
    List.map_cons] at names
  obtain ⟨link, read, following⟩ := trail_next trail next names.symm
  rw [← onward_next_eq, Option.some_inj] at following
  obtain ⟨same, again, span⟩ := spans t.slot (by rw [← names]; simp)
  obtain rfl : same = link := Except.ok.inj (again.symm.trans read)
  have rank := rankIn_next slots_rowOf regular.distinct parts level
  rw [following, rank, rankIn_tower slots_rowOf regular.distinct parts] at span
  rw [linkOf_of_linkAt read, link_ext following.symm (Nat.add_left_cancel span)]

theorem rowOf_fits (regular : Regular list order) :
    (rowOf list.nodes list.level order).length ≤ list.nodes.slots.size := by
  have inside : head :: tail :: order ⊆ List.range list.nodes.slots.size := by
    intro slot member
    obtain ⟨node, held⟩ := Option.isSome_iff_exists.mp ((regular.stored slot).mpr member)
    exact List.mem_range.mpr (Arena.lt_size_of_get? held)
  have few := regular.distinct.length_le_of_subset inside
  rw [List.length_range, List.length_cons, List.length_cons] at few
  rw [length_rowOf]
  omega

theorem rowOf_used (regular : Regular list order) :
    ∀ t ∈ rowOf list.nodes list.level order, 0 < t.height := by
  intro t member
  rcases List.mem_cons.mp member with rfl | inOrder
  · exact Nat.succ_pos _
  · obtain ⟨slot, inside, rfl⟩ := List.mem_map.mp inOrder
    exact (tower_tall (Nat.zero_le _) slot).mpr (List.filter_eq_self.mp regular.lowest slot inside)

variable {holds : K → Bool}

theorem keys_ascend (regular : Regular list order) :
    (∀ slot ∈ order, ∃ key, keyAt list.nodes slot = .ok key) ∧
      order.Pairwise fun a b => ∀ first second, keyAt list.nodes a = .ok first →
        keyAt list.nodes b = .ok second → (compare first second).isLE = true := by
  obtain ⟨keys, read, ascending⟩ := (regular.levels 0 (Nat.zero_le _)).keys
  rw [regular.lowest] at read
  have all := keys_read read
  constructor
  · intro slot member
    have inKeys := List.mem_map_of_mem (f := keyAt list.nodes) member
    rw [all] at inKeys
    obtain ⟨key, -, here⟩ := List.mem_map.mp inKeys
    exact ⟨key, here.symm⟩
  · have pairs : (keys.map (Except.ok : K → Except Fault K)).Pairwise fun x y =>
        ∀ a b, x = .ok a → y = .ok b → (compare a b).isLE = true := by
      rw [List.pairwise_map]
      apply ascending.imp
      rintro a b le first second ⟨⟩ ⟨⟩
      exact le
    rw [← all, List.pairwise_map] at pairs
    exact pairs

theorem asked_slot (regular : Regular list order) {slot : Nat} (member : slot ∈ order) :
    (do return holds (← keyAt list.nodes slot)) =
      (.ok (keyHolds list.nodes holds slot) : Except Fault Bool) := by
  obtain ⟨key, here⟩ := (keys_ascend regular).1 slot member
  rw [keyHolds_eq here, here]
  rfl

theorem asked_rowOf (regular : Regular list order) (holds : K → Bool) :
    Asked (fun stop => return holds (← keyAt list.nodes stop.node))
      (rowOf list.nodes list.level order) := by
  intro pre t post parts inner
  cases pre with
  | nil => exact absurd rfl inner
  | cons first pre =>
    have member : t ∈ order.map (tower list.nodes list.level) := by
      rw [(List.cons.inj parts).2]
      simp
    obtain ⟨slot, inside, rfl⟩ := List.mem_map.mp member
    exact ⟨_, asked_slot regular inside⟩

theorem holds_before (regular : Regular list order)
    (downward : ∀ a b, (compare a b).isLE = true → holds b = true → holds a = true) :
    order.Pairwise fun a b => keyHolds list.nodes holds b = true →
      keyHolds list.nodes holds a = true := by
  obtain ⟨read, ascending⟩ := keys_ascend regular
  apply ascending.imp_of_mem
  intro a b inFront inBack le held
  obtain ⟨first, here⟩ := read a inFront
  obtain ⟨second, there⟩ := read b inBack
  rw [keyHolds_eq there] at held
  rw [keyHolds_eq here]
  exact downward first second (le first second here there) held

/-- The way down parts the nodes into those that the condition holds of and the others. -/
theorem stops_regular (regular : Regular list order)
    (downward : ∀ a b, (compare a b).isLE = true → holds b = true → holds a = true) :
    ∃ path, list.stops holds = .ok path ∧ path.size = list.level + 1 ∧
      ∃ rest, order = order.filter (keyHolds list.nodes holds) ++ rest ∧
        Stopped path (rowOf list.nodes list.level (order.filter (keyHolds list.nodes holds)))
          list.level := by
  obtain ⟨before, x, back, path, whole, walked, size, stopped, went, halts⟩ :=
    descend_ends (linked_rowOf regular) (asked_rowOf regular holds) (ended_of_names slots_rowOf regular.distinct) rfl
      (Nat.lt_succ_self _) (rowOf_used regular) (rowOf_fits regular)
  obtain ⟨held, rest, parts, inFront, rfl⟩ := split_row whole
  have ordered := holds_before regular downward
  rw [parts] at ordered
  obtain ⟨inHeld, inRest, -⟩ := List.pairwise_append.mp ordered
  have yes : ∀ slot ∈ held, keyHolds list.nodes holds slot = true := by
    rcases List.eq_nil_or_concat' held with rfl | ⟨init, last, rfl⟩
    · intro slot member
      cases member
    · rw [List.map_append, List.map_singleton, ← List.cons_append] at inFront
      obtain ⟨rfl, same⟩ := List.append_inj' inFront rfl
      obtain rfl := (List.cons.inj same).1
      have held := went.resolve_left (List.cons_ne_nil _ _)
      have inOrder : last ∈ order := by
        rw [parts]
        simp
      have answer : keyHolds list.nodes holds last = true :=
        Except.ok.inj ((asked_slot regular inOrder).symm.trans held)
      intro slot member
      rcases List.mem_append.mp member with earlier | atLast
      · exact (List.pairwise_append.mp inHeld).2.2 slot earlier last (List.mem_singleton_self _)
          answer
      · rw [List.mem_singleton.mp atLast]
        exact answer
  have no : ∀ slot ∈ rest, keyHolds list.nodes holds slot = false := by
    cases rest with
    | nil =>
      intro slot member
      cases member
    | cons first rest =>
      have halted := halts (tower list.nodes list.level first) _ rfl
      have inOrder : first ∈ order := by
        rw [parts]
        simp
      have answer : keyHolds list.nodes holds first = false :=
        Except.ok.inj ((asked_slot regular inOrder).symm.trans halted)
      intro slot member
      rcases List.mem_cons.mp member with rfl | later
      · exact answer
      · rw [← Bool.not_eq_true]
        intro held
        rw [(List.pairwise_cons.mp inRest).1 slot later held] at answer
        cases answer
  have kept : order.filter (keyHolds list.nodes holds) = held := by
    rw [parts, List.filter_append, List.filter_eq_self.mpr yes, List.filter_eq_nil_iff.mpr,
      List.append_nil]
    intro slot member
    simp [no slot member]
  rw [kept, rowOf, ← inFront]
  exact ⟨path, walked, size, rest, parts, stopped⟩

/-- The stop of a level is the last of the nodes that are tall enough and that the condition holds
of. -/
theorem stop_holding (regular : Regular list order) {rest : List Nat}
    (parts : order = order.filter (keyHolds list.nodes holds) ++ rest) {level : Nat} {stop : Stop}
    (low : level ≤ list.level)
    (stops : StopsAt (rowOf list.nodes list.level (order.filter (keyHolds list.nodes holds)))
      level stop) :
    stop = ⟨lastHolding list.nodes order holds level,
      rankIn order (lastHolding list.nodes order holds level)⟩ := by
  obtain ⟨pre, t, mid, whole, tall, short, rfl⟩ := stops
  have names := @tall_row K V list.nodes _ _ low (order.filter (keyHolds list.nodes holds))
  rw [whole, List.filter_append, List.filter_cons_of_pos (by simpa using tall), filter_short short,
    List.map_append, List.map_singleton] at names
  have last : lastHolding list.nodes order holds level = t.slot := by
    have same : tallNodes list.nodes (order.filter (keyHolds list.nodes holds)) level =
        (tallNodes list.nodes order level).filter (keyHolds list.nodes holds) :=
      List.filter_comm _ _ _
    have ends := congrArg List.getLast? names
    rw [same, List.getLast?_concat, List.getLast?_cons, Option.some_inj] at ends
    exact ends.symm
  have further : rowOf list.nodes list.level order =
      pre ++ t :: (mid ++ rest.map (tower list.nodes list.level)) := by
    rw [parts, rowOf, List.map_append, ← List.cons_append, ← rowOf, whole]
    simp
  rw [last, rankIn_tower slots_rowOf regular.distinct further]

theorem lowest_rank (regular : Regular list order) {rest : List Nat}
    (parts : order = order.filter (keyHolds list.nodes holds) ++ rest) {stop : Stop}
    (stops : StopsAt (rowOf list.nodes list.level (order.filter (keyHolds list.nodes holds)))
      0 stop) :
    rankIn order (lastHolding list.nodes order holds 0) =
      order.countP (keyHolds list.nodes holds) := by
  have same := stop_holding regular parts (Nat.zero_le _) stops
  have used : ∀ t ∈ rowOf list.nodes list.level (order.filter (keyHolds list.nodes holds)),
      0 < t.height := by
    intro t member
    apply rowOf_used regular t
    have sub : (order.filter (keyHolds list.nodes holds)).Sublist order := List.filter_sublist
    exact ((sub.map _).cons_cons _).subset member
  obtain ⟨pre, t, whole, ended⟩ := stop_at_end used stops
  have total := congrArg List.length whole
  rw [length_rowOf, List.length_append, List.length_singleton] at total
  rw [ended, Stop.mk.injEq] at same
  rw [List.countP_eq_length_filter, ← same.2]
  exact (Nat.succ.inj total).symm

structure Descends (list : SkipList K V γ) (order : List Nat) (holds : K → Bool) : Prop where
  seek : list.seek holds = .ok ⟨lastHolding list.nodes order holds 0,
    order.countP (keyHolds list.nodes holds)⟩
  path : ∃ path, list.path holds = .ok path ∧ path.size = list.level + 1 ∧
    (∀ level, level ≤ list.level → path[level]? = some ⟨lastHolding list.nodes order holds level,
      rankIn order (lastHolding list.nodes order holds level)⟩) ∧
    list.seek holds = stopAt path 0

theorem descents_stop (proper : Proper list order)
    (downward : ∀ a b, (compare a b).isLE = true → holds b = true → holds a = true) :
    Descends list order holds := by
  obtain ⟨regular, room, limit⟩ := proper
  obtain ⟨path, walked, size, rest, parts, stopped⟩ := stops_regular regular downward
  have found : ∀ level, level ≤ list.level →
      path[level]? = some ⟨lastHolding list.nodes order holds level,
        rankIn order (lastHolding list.nodes order holds level)⟩ := by
    intro level low
    obtain ⟨stop, here, stops⟩ := stopped level low
    rw [here, stop_holding regular parts low stops]
  have lowest : list.seek holds = stopAt path 0 := by
    rw [seek, walked, ok_bind]
  obtain ⟨stop, -, stops⟩ := stopped 0 (Nat.zero_le _)
  refine ⟨?_, path, ?_, size, found, lowest⟩
  · rw [lowest, stopAt, found 0 (Nat.zero_le _), lowest_rank regular parts stops]
  · rw [SkipList.path, if_pos (by omega), walked]

theorem reachable_proper [DrawSource γ] [Std.TransOrd K] (reachable : Reachable list) :
    ∃ order, Proper list order := by
  obtain ⟨survivors, items, laid, inOrder⟩ := reachable_mirrors reachable
  exact ⟨slots items, laid_regular laid inOrder.ascending, laid.room, laid.limit⟩

theorem descents_stop_words : ∃ list : SkipList Nat Nat Xoshiro, list.len = 4 ∧ list.level = 2 ∧
    ∃ order, Proper list order ∧
      ∀ bound, Descends list order fun key => (compare key bound).isLE := by
  obtain ⟨list, reachable, len, level⟩ := uneven_reachable
  obtain ⟨order, proper⟩ := reachable_proper reachable
  refine ⟨list, len, level, order, proper, fun bound => descents_stop proper ?_⟩
  intro a b le held
  exact Std.TransCmp.isLE_trans le held

end Regularities

end MemIndex.SkipList
