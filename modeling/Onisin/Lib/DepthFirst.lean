import Mathlib.Data.List.Perm.Subperm
import Mathlib.Logic.Relation
import Onisin.Lib.KeepFirst

/-!
Depth-first search through references, with a visited set that is marked on entry. The nodes in
the order in which they are finished are those of the tree of references, cut off where a node
would contain itself, read from the leaves up, each node at its first place.
-/

set_option autoImplicit false

namespace Onisin.Lib

variable {κ : Type}

/-- The tree of references below a node, children before the node. `path` are the nodes that it
lies inside, and the tree is cut at a depth. -/
def unfoldTree [BEq κ] (children : κ → List κ) : Nat → List κ → κ → List κ
  | 0, _, _ => []
  | d + 1, path, n =>
    if path.contains n then []
    else (children n).flatMap (unfoldTree children d (n :: path)) ++ [n]

/-- The nodes not visited yet. -/
def unvisited [BEq κ] (nodes visited : List κ) : Nat :=
  (nodes.filter fun n => !visited.contains n).length

/-- The search takes the nodes of a list in turn. It ends with another visited set and has
finished some nodes on its way. -/
inductive Visits (nodes : List κ) (children : κ → List κ) :
    List κ → List κ → List κ → List κ → Prop where
  | done (visited : List κ) : Visits nodes children visited [] visited []
  | skip {n : κ} {visited visited' rest order : List κ} (h : n ∈ visited)
      (hrest : Visits nodes children visited rest visited' order) :
      Visits nodes children visited (n :: rest) visited' order
  | enter {n : κ} {visited visited₁ visited' rest inner order : List κ} (h : n ∉ visited)
      (hnode : n ∈ nodes) (hinner : Visits nodes children (n :: visited) (children n) visited₁ inner)
      (hrest : Visits nodes children visited₁ rest visited' order) :
      Visits nodes children visited (n :: rest) visited' (inner ++ n :: order)

variable {nodes : List κ} {children : κ → List κ} {n k : κ}
  {visited visited' visited₁ path finished finished' work rest order order' : List κ} {d : Nat}

/-! Searches put together. -/

theorem Visits.cons (hfirst : Visits nodes children visited [n] visited₁ order)
    (hrest : Visits nodes children visited₁ rest visited' order') :
    Visits nodes children visited (n :: rest) visited' (order ++ order') := by
  cases hfirst with
  | skip h hnil =>
    cases hnil
    exact .skip h hrest
  | enter h hnode hinner hnil =>
    cases hnil
    rw [List.append_assoc]
    exact .enter h hnode hinner hrest

theorem Visits.subset (h : Visits nodes children visited work visited' order) : visited ⊆ visited' := by
  induction h with
  | done visited => exact fun _ hk => hk
  | skip _ _ ih => exact ih
  | enter _ _ _ _ ihinner ihrest =>
    exact fun k hk => ihrest (ihinner (List.mem_cons_of_mem _ hk))

theorem Visits.work_subset (h : Visits nodes children visited work visited' order) :
    work ⊆ visited' := by
  induction h with
  | done visited => exact List.nil_subset _
  | skip h hrest ih =>
    rintro k (_ | ⟨_, hk⟩)
    · exact hrest.subset h
    · exact ih hk
  | enter _ _ hinner hrest _ ih =>
    rintro k (_ | ⟨_, hk⟩)
    · exact hrest.subset (hinner.subset List.mem_cons_self)
    · exact ih hk

/-! What is known on the way. -/

/-- The finished nodes refer to finished nodes and to nodes still being searched. -/
def Closed (children : κ → List κ) (finished path : List κ) : Prop :=
  ∀ n ∈ finished, ∀ c ∈ children n, c ∈ finished ∨ c ∈ path

theorem Closed.nest (h : Closed children finished path) (n : κ) :
    Closed children finished (n :: path) :=
  fun m hm c hc => (h m hm c hc).imp_right (List.mem_cons_of_mem n)

/-- A path without repetitions leaves room for another node. -/
theorem room_for_node (hnode : n ∈ nodes) (hn : n ∉ path) (hnodup : path.Nodup) (hpath : path ⊆ nodes) :
    path.length < nodes.length := by
  have hsub : n :: path ⊆ nodes := List.cons_subset.mpr ⟨hnode, hpath⟩
  have hlen := (List.Nodup.subperm (List.nodup_cons.mpr ⟨hn, hnodup⟩) hsub).length_le
  rw [List.length_cons] at hlen
  omega

/-- What is known when some nodes have been finished and the search is inside `path`. -/
structure Searched (nodes : List κ) (children : κ → List κ) (visited finished path : List κ) :
    Prop where
  visited_iff : ∀ k, k ∈ visited ↔ k ∈ finished ∨ k ∈ path
  closed : Closed children finished path
  nodup : path.Nodup
  nodes : path ⊆ nodes

theorem Searched.enter (h : Searched nodes children visited finished path) (hn : n ∉ visited)
    (hnode : n ∈ nodes) : Searched nodes children (n :: visited) finished (n :: path) where
  visited_iff k := by
    rw [List.mem_cons, List.mem_cons, h.visited_iff]
    exact or_left_comm
  closed := h.closed.nest n
  nodup := List.nodup_cons.mpr ⟨fun hk => hn ((h.visited_iff n).mpr (Or.inr hk)), h.nodup⟩
  nodes := List.cons_subset.mpr ⟨hnode, h.nodes⟩

/-- A node whose references have all been visited is finished. -/
theorem Searched.leave (h : Searched nodes children visited finished (n :: path))
    (hc : children n ⊆ visited) : Searched nodes children visited (n :: finished) path where
  visited_iff k := by
    rw [h.visited_iff, List.mem_cons, List.mem_cons, or_left_comm, or_assoc]
  closed := by
    intro m hm c hmc
    have hvisited : c ∈ finished ∨ c ∈ n :: path := by
      obtain rfl | hm := List.mem_cons.mp hm
      · exact (h.visited_iff c).mp (hc hmc)
      · exact h.closed m hm c hmc
    rw [List.mem_cons] at hvisited ⊢
    rwa [or_assoc, or_left_comm]
  nodup := (List.nodup_cons.mp h.nodup).2
  nodes := (List.cons_subset.mp h.nodes).2

/-- Only which nodes are finished matters. -/
theorem Searched.congr (h : Searched nodes children visited finished path)
    (hf : ∀ k, k ∈ finished ↔ k ∈ finished') : Searched nodes children visited finished' path where
  visited_iff k := by rw [h.visited_iff, hf]
  closed n hn c hc := by
    rw [← hf]
    exact h.closed n ((hf n).mpr hn) c hc
  nodup := h.nodup
  nodes := h.nodes

/-- Each finished node is reached from the list that was worked off. -/
theorem Visits.reached (h : Visits nodes children visited work visited' order) (hk : k ∈ order) :
    ∃ m ∈ work, Relation.ReflTransGen (fun a b => b ∈ children a) m k := by
  induction h with
  | done visited => cases hk
  | skip _ _ ih =>
    obtain ⟨m, hm, hreach⟩ := ih hk
    exact ⟨m, List.mem_cons_of_mem _ hm, hreach⟩
  | enter _ _ _ _ ihinner ihrest =>
    obtain hin | hrest := List.mem_append.mp hk
    · obtain ⟨m, hm, hreach⟩ := ihinner hin
      exact ⟨_, List.mem_cons_self, hreach.head hm⟩
    · obtain rfl | hrest := List.mem_cons.mp hrest
      · exact ⟨k, List.mem_cons_self, .refl⟩
      · obtain ⟨m, hm, hreach⟩ := ihrest hrest
        exact ⟨m, List.mem_cons_of_mem _ hm, hreach⟩

theorem searched_start : Searched nodes children [] [] [] where
  visited_iff _ := by simp
  closed _ hn := absurd hn List.not_mem_nil
  nodup := List.nodup_nil
  nodes := List.nil_subset _

/-! The nodes left. -/

variable [BEq κ] [LawfulBEq κ]

theorem unvisited_mono (h : visited ⊆ visited') :
    unvisited nodes visited' ≤ unvisited nodes visited := by
  unfold unvisited
  refine (List.Sublist.length_le ?_)
  refine List.monotone_filter_right nodes fun n hn => ?_
  rw [Bool.not_eq_true', ← Bool.not_eq_true, List.contains_iff_mem] at hn ⊢
  exact fun hk => hn (h hk)

theorem unvisited_enter (hnode : n ∈ nodes) (h : n ∉ visited) :
    unvisited nodes (n :: visited) < unvisited nodes visited := by
  have hsplit : (nodes.filter fun k => !(n :: visited).contains k) =
      (nodes.filter fun k => !visited.contains k).filter fun k => !(k == n) := by
    rw [List.filter_filter]
    refine List.filter_congr fun k _ => ?_
    rw [List.contains_cons, Bool.not_or]
  unfold unvisited
  rw [hsplit, List.length_filter_lt_length_iff_exists]
  refine ⟨n, List.mem_filter.mpr ⟨hnode, ?_⟩, by simp⟩
  rw [Bool.not_eq_true', ← Bool.not_eq_true, List.contains_iff_mem]
  exact h

/-! The order of the finished nodes. -/

theorem unfoldTree_inside (h : n ∈ path) : unfoldTree children d path n = [] := by
  cases d with
  | zero => rfl
  | succ d => rw [unfoldTree, if_pos (List.contains_iff_mem.mpr h)]

theorem unfoldTree_outside (h : n ∉ path) : unfoldTree children (d + 1) path n =
    (children n).flatMap (unfoldTree children d (n :: path)) ++ [n] := by
  rw [unfoldTree, if_neg fun hc => h (List.contains_iff_mem.mp hc)]

theorem not_mem_path_of_mem_unfoldTree (h : k ∈ unfoldTree children d path n) : k ∉ path := by
  induction d generalizing path n with
  | zero => cases h
  | succ d ih =>
    by_cases hn : n ∈ path
    · rw [unfoldTree_inside hn] at h
      cases h
    · rw [unfoldTree_outside hn, List.mem_append, List.mem_flatMap, List.mem_singleton] at h
      obtain ⟨c, -, hc⟩ | rfl := h
      · exact fun hk => ih hc (List.mem_cons_of_mem n hk)
      · exact hn

/-- The tree below a finished node holds finished nodes only. -/
theorem Closed.unfoldTree_subset (h : Closed children finished path) (hn : n ∈ finished) :
    unfoldTree children d path n ⊆ finished := by
  induction d generalizing path n with
  | zero => exact List.nil_subset _
  | succ d ih =>
    by_cases hpath : n ∈ path
    · rw [unfoldTree_inside hpath]
      exact List.nil_subset _
    · intro k hk
      rw [unfoldTree_outside hpath, List.mem_append, List.mem_flatMap, List.mem_singleton] at hk
      obtain ⟨c, hc, hk⟩ | rfl := hk
      · obtain hfin | hin := h n hn c hc
        · exact ih (h.nest n) hfin hk
        · rw [unfoldTree_inside (List.mem_cons_of_mem n hin)] at hk
          cases hk
      · exact hn

/-- A search finishes the nodes of the trees it is sent through, each at its first place. -/
theorem Visits.order_eq (h : Visits nodes children visited work visited' order)
    (hs : Searched nodes children visited finished path) (hd : nodes.length ≤ d + path.length) :
    Searched nodes children visited' (order ++ finished) path ∧
      keepFirst id finished (work.flatMap (unfoldTree children d path)) = order := by
  induction h generalizing finished path d with
  | done visited => exact ⟨hs, rfl⟩
  | @skip n visited visited' rest order hn hrest ih =>
    have hseen : unfoldTree children d path n ⊆ finished := by
      obtain hfin | hin := (hs.visited_iff n).mp hn
      · exact hs.closed.unfoldTree_subset hfin
      · rw [unfoldTree_inside hin]
        exact List.nil_subset _
    have hnone : keepFirst id finished (unfoldTree children d path n) = [] :=
      keepFirst_eq_nil fun k hk => hseen hk
    obtain ⟨hs', horder⟩ := ih hs hd
    refine ⟨hs', ?_⟩
    rw [List.flatMap_cons, keepFirst_append, hnone, List.nil_append, ← horder]
    refine keepFirst_congr fun k => ?_
    rw [List.map_id, List.mem_append]
    exact ⟨fun hk => hk.elim (fun hk => hseen hk) id, Or.inr⟩
  | @enter n visited visited₁ visited' rest inner order hn hnode hinner hrest ihinner ihrest =>
    have hnfin : n ∉ finished := fun hk => hn ((hs.visited_iff n).mpr (Or.inl hk))
    have hnpath : n ∉ path := fun hk => hn ((hs.visited_iff n).mpr (Or.inr hk))
    have hroom := room_for_node hnode hnpath hs.nodup hs.nodes
    obtain ⟨d, rfl⟩ : ∃ d', d = d' + 1 := ⟨d - 1, by omega⟩
    -- the references of the node, from inside it
    obtain ⟨hs₁, hbelow⟩ := ihinner (d := d) (hs.enter hn hnode) (by rw [List.length_cons]; omega)
    -- the rest of the list, with the node finished
    obtain ⟨hs', horder⟩ := ihrest (hs₁.leave hinner.work_subset) hd
    have hset : ∀ k, k ∈ order ++ n :: (inner ++ finished) ↔ k ∈ inner ++ n :: order ++ finished := by
      intro k
      simp only [List.mem_append, List.mem_cons]
      tauto
    refine ⟨hs'.congr hset, ?_⟩
    have hnew : n ∉ ((children n).flatMap (unfoldTree children d (n :: path))).map id ++ finished := by
      rw [List.map_id, List.mem_append, List.mem_flatMap]
      rintro (⟨c, -, hc⟩ | hfin)
      · exact not_mem_path_of_mem_unfoldTree hc List.mem_cons_self
      · exact hnfin hfin
    rw [List.flatMap_cons, unfoldTree_outside hnpath, List.append_assoc, keepFirst_append, hbelow,
      List.singleton_append, keepFirst_new hnew, ← horder]
    refine congrArg (fun l => inner ++ n :: l) (keepFirst_congr fun k => ?_)
    have hk : k ∈ inner ↔
        k ∈ (children n).flatMap (unfoldTree children d (n :: path)) ∧ k ∉ finished := by
      have hkey : k ∈ (keepFirst id finished
          ((children n).flatMap (unfoldTree children d (n :: path)))).map id ↔ _ := mem_keepFirst_key
      rwa [List.map_id, hbelow, List.map_id] at hkey
    rw [List.map_id, List.mem_cons, List.mem_append, List.mem_cons, List.mem_append, hk]
    tauto

/-! A search from a single node. -/

theorem Visits.order_of_root (h : Visits nodes children [] [n] visited order) (hd : nodes.length ≤ d) :
    keepFirst id [] (unfoldTree children d [] n) = order := by
  have horder := (h.order_eq searched_start (d := d) hd).2
  rwa [List.flatMap_singleton] at horder

theorem Visits.nodup (h : Visits nodes children [] [n] visited order) : order.Nodup := by
  rw [← h.order_of_root (Nat.le_refl _)]
  have hnodup : ((keepFirst id [] (unfoldTree children nodes.length [] n)).map id).Nodup :=
    keepFirst_nodup
  rwa [List.map_id] at hnodup

theorem Visits.mem_iff (h : Visits nodes children [] [n] visited order) :
    k ∈ order ↔ Relation.ReflTransGen (fun a b => b ∈ children a) n k := by
  constructor
  · intro hk
    obtain ⟨m, hm, hreach⟩ := h.reached hk
    exact List.mem_singleton.mp hm ▸ hreach
  · intro hreach
    have hs := (h.order_eq searched_start (d := nodes.length) (Nat.le_refl _)).1
    have hroot : n ∈ order := by
      simpa using (hs.visited_iff n).mp (h.work_subset List.mem_cons_self)
    induction hreach with
    | refl => exact hroot
    | tail _ hstep ih => simpa using hs.closed _ (List.mem_append_left _ ih) _ hstep

end Onisin.Lib
