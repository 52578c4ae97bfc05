import Akio.Lib.Sweep
import Akio.Skiplist.Undo

/-!
# `skiplist_free`

A list has one node more in memory than it has keys, and `skiplist_free` frees them all.
-/

namespace Akio.Skiplist

variable {K V : Type} {list list' : skiplist K V} {nodes nodes' : Store (skiplist_node K V)} {h p n d fuel : Nat}
  {l : List Nat} {x : Ptr} {update : List Ptr} {key : Option K} {value : Option V} {r : Int}

/-- What is left in memory of the nodes. -/
def skiplist_free (fuel : Nat) (list : Option (skiplist K V)) : Outcome (Option (Store (skiplist_node K V))) := do
  let some list := list | return none
  let node ← getForward list.nodes list.header 0
  let nodes ← list.nodes.free list.header
  let nodes ← nodes.sweep (fun n => Outcome.ofOption n.forward[0]?) fuel node
  return some nodes

/-! ## The nodes in memory -/

theorem setForward_live {i : Nat} {y : Ptr} (hdone : setForward nodes x i y = .done nodes') (p : Nat) :
    nodes'.Live p ↔ nodes.Live p := by
  obtain ⟨n, hread, hdone⟩ := Outcome.bind_eq_done.mp hdone
  obtain ⟨q, rfl, hq⟩ := Store.read_eq_done.mp hread
  split_ifs at hdone
  rw [Store.modify_live (Store.live_of_cell hq)] at hdone
  obtain rfl := Outcome.done.inj hdone
  exact Store.adjust_live

theorem splice_live {i : Nat} (hdone : splice x update n i nodes = .done nodes') (p : Nat) :
    nodes'.Live p ↔ nodes.Live p := by
  induction n generalizing i nodes with
  | zero =>
    cases hdone
    rfl
  | succ n ih =>
    obtain ⟨u, -, hdone⟩ := Outcome.bind_eq_done.mp hdone
    obtain ⟨next, -, hdone⟩ := Outcome.bind_eq_done.mp hdone
    obtain ⟨nodes₁, hfirst, hdone⟩ := Outcome.bind_eq_done.mp hdone
    obtain ⟨nodes₂, hsecond, hdone⟩ := Outcome.bind_eq_done.mp hdone
    rw [ih hdone, setForward_live hsecond, setForward_live hfirst]

theorem unlink_live {i : Nat} (hdone : unlink x update n i nodes = .done nodes') (p : Nat) :
    nodes'.Live p ↔ nodes.Live p := by
  induction n generalizing i nodes with
  | zero =>
    cases hdone
    rfl
  | succ n ih =>
    obtain ⟨u, -, hdone⟩ := Outcome.bind_eq_done.mp hdone
    obtain ⟨next, -, hdone⟩ := Outcome.bind_eq_done.mp hdone
    split_ifs at hdone
    · cases hdone
      rfl
    · obtain ⟨next', -, hdone⟩ := Outcome.bind_eq_done.mp hdone
      obtain ⟨nodes₁, hset, hdone⟩ := Outcome.bind_eq_done.mp hdone
      rw [ih hdone, setForward_live hset]

/-- There is the header, and a node for each key. -/
def Full (list : skiplist K V) : Prop := list.nodes.Blocks (list.length + 1)

theorem modify_live_iff {next : Ptr} {change : skiplist_node K V → skiplist_node K V}
    (hdone : nodes.modify next change = .done nodes') (p : Nat) : nodes'.Live p ↔ nodes.Live p := by
  cases next with
  | none => cases hdone
  | some q =>
    rw [Store.modify_live (Store.live_of_modify hdone)] at hdone
    obtain rfl := Outcome.done.inj hdone
    exact Store.adjust_live

theorem insert_full {fuel d : Nat} {key : K} {value : V} (hfull : Full list)
    (hdone : skiplist_insert fuel true d (some list) (some key) (some value) = .done (some list', r)) : Full list' := by
  unfold skiplist_insert at hdone
  dsimp only at hdone
  rw [if_neg (Option.some_ne_none value)] at hdone
  obtain ⟨⟨x, update⟩, -, hdone⟩ := Outcome.bind_eq_done.mp hdone
  obtain ⟨next, -, hdone⟩ := Outcome.bind_eq_done.mp hdone
  obtain ⟨found, -, hdone⟩ := Outcome.bind_eq_done.mp hdone
  split_ifs at hdone with hfound
  · obtain ⟨nodes, hmodify, hpure⟩ := Outcome.bind_eq_done.mp hdone
    cases hpure
    exact Store.Blocks.congr hfull (modify_live_iff hmodify)
  all_goals
    obtain ⟨nodes, hsplice, hpure⟩ := Outcome.bind_eq_done.mp hdone
    cases hpure
    exact Store.Blocks.congr hfull.alloc (splice_live hsplice)

theorem delete_full {fuel : Nat} {key : K} (hfull : Full list) (hpos : 0 < list.length)
    (hdone : skiplist_delete fuel (some list) (some key) = .done (some list', value)) : Full list' := by
  unfold skiplist_delete at hdone
  dsimp only at hdone
  obtain ⟨⟨x, update⟩, -, hdone⟩ := Outcome.bind_eq_done.mp hdone
  obtain ⟨x, -, hdone⟩ := Outcome.bind_eq_done.mp hdone
  obtain ⟨found, -, hdone⟩ := Outcome.bind_eq_done.mp hdone
  split_ifs at hdone with hfound
  · obtain ⟨nodes, hunlink, hdone⟩ := Outcome.bind_eq_done.mp hdone
    obtain ⟨node, hread, hdone⟩ := Outcome.bind_eq_done.mp hdone
    obtain ⟨nodes', hfree, hdone⟩ := Outcome.bind_eq_done.mp hdone
    obtain ⟨level, -, hpure⟩ := Outcome.bind_eq_done.mp hdone
    cases hpure
    obtain ⟨q, rfl, hq⟩ := Store.read_eq_done.mp hread
    have hlive := Store.live_of_cell hq
    rw [Store.free_live hlive] at hfree
    obtain rfl := Outcome.done.inj hfree
    have hblocks : nodes.Blocks (list.length - 1 + 1 + 1) := by
      rw [Nat.sub_add_cancel hpos]
      exact Store.Blocks.congr hfull (unlink_live hunlink)
    exact hblocks.drop hlive
  · cases hdone
    exact hfull

/-! ## Runs -/

theorem exec_full [DecidableEq K] (horder : TotalOrder list.compare) (hw : WellFormed list h l) (hfull : Full list)
    (hfuel : l.length < fuel) {op : Op K V} {a : Answer V} (hdone : exec fuel d list op = .done (some list', a)) :
    Full list' := by
  cases op with
  | insert key value =>
    obtain ⟨⟨list₁, r⟩, hcall, hpure⟩ := Outcome.bind_eq_done.mp hdone
    cases hpure
    exact insert_full hfull hcall
  | search key =>
    obtain ⟨r, -, hpure⟩ := Outcome.bind_eq_done.mp hdone
    cases hpure
    exact hfull
  | delete key =>
    obtain ⟨⟨list₁, r⟩, hcall, hpure⟩ := Outcome.bind_eq_done.mp hdone
    cases hpure
    rcases l with _ | ⟨p, l⟩
    · -- There is no key, and so none is found.
      have hsplit : Split list key [] [] := ⟨by simp, by simp⟩
      have habsent := delete_absent horder hsplit hw (by simp) hfuel
      cases hcall.symm.trans habsent
      exact hfull
    · have hpos : 0 < list.length := by
        rw [hw.length]
        exact Nat.succ_pos _
      exact delete_full hfull hpos hcall
  | length =>
    cases hdone
    exact hfull

theorem execAll_full [DecidableEq K] {m : Finmap fun _ : K => V} (horder : TotalOrder list.compare)
    (hw : WellFormed list h l) (hm : Represents m list l) (hfull : Full list) (ops : List (Op K V))
    {random_level : Nat → Nat} (hlevels : ∀ n, 1 ≤ random_level n ∧ random_level n ≤ SKIPLIST_MAXLEVEL)
    (hfuel : l.length + ops.length < fuel) :
    ∃ list' l' as, execAll fuel random_level (some list) ops = .done (some list', as) ∧ WellFormed list' h l' ∧
      list'.compare = list.compare ∧ Full list' := by
  induction ops generalizing list l m random_level with
  | nil => exact ⟨list, l, [], rfl, hw, rfl, hfull⟩
  | cons op ops ih =>
    rw [List.length_cons] at hfuel
    have hlt : l.length < fuel := by omega
    obtain ⟨list₁, l₁, hexec, hw₁, hm₁, hcompare₁, hlen₁⟩ :=
      exec_spec horder hw hm (hlevels 0).1 (hlevels 0).2 hlt op
    obtain ⟨list', l', as, hrest, hw', hcompare', hfull'⟩ := ih (hcompare₁ ▸ horder) hw₁ hm₁
      (exec_full horder hw hfull hlt hexec) (fun n => hlevels (n + 1)) (by omega)
    refine ⟨list', l', answer m op :: as, ?_, hw', hcompare'.trans hcompare₁, hfull'⟩
    unfold execAll
    simp only [hexec, Outcome.done_bind, hrest, Outcome.pure_eq]

theorem new_full {compare : K → K → Int} (hnew : skiplist_new true true compare = .done (some list)) : Full list := by
  obtain ⟨nodes, hmodify, hpure⟩ := Outcome.bind_eq_done.mp hnew
  cases hpure
  exact Store.Blocks.congr Store.blocks_empty.alloc (modify_live_iff hmodify)

theorem skiplist_free_spec (horder : TotalOrder list.compare) (hw : WellFormed list h l) (hfull : Full list) :
    ∃ nodes, skiplist_free l.length (some list) = .done (some nodes) ∧ ∀ p, ¬ nodes.Live p := by
  have hlive : ∀ p ∈ h :: l, list.nodes.Live p := hw.live
  have hnodup : (h :: l).Nodup := List.nodup_cons.mpr ⟨hw.header_off, hw.nodup horder⟩
  have hall : ∀ p, list.nodes.Live p ↔ p ∈ h :: l := by
    unfold Full at hfull
    rw [hw.length] at hfull
    exact Store.Blocks.live_iff hfull hnodup hlive
  have hne : ∀ p ∈ l, p ≠ h := by
    rintro p hp rfl
    exact hw.header_off hp
  have hnext : ∀ p ∈ l, ∀ b, (list.nodes.drop h).cell p = some b →
      Outcome.ofOption b.forward[0]? = .done b.forward[0]?.join := by
    intro p hp b hb
    rw [Store.drop_cell_of_ne (hne p hp)] at hb
    have hheight : height list.nodes p = b.forward.length := Store.field_of_cell hb
    have hpos : 0 < b.forward.length := hheight ▸ hw.height_pos p hp
    rw [List.getElem?_eq_getElem hpos]
    rfl
  have hchain : Chain ((list.nodes.drop h).field (fun n => n.forward[0]?.join) none) (linkAt list.nodes 0 h) l
      none := by
    have hzero := hw.chain 0 (by decide)
    rw [onLevel_zero hw.height_pos] at hzero
    rw [Store.field_drop]
    exact hzero.update hw.header_off none
  obtain ⟨nodes, hsweep, hcell⟩ := Store.sweep_spec hnext hchain (hw.nodup horder)
    (fun p hp => Store.drop_live.mpr ⟨hne p hp, hlive p (List.mem_cons_of_mem h hp)⟩) (Nat.le_refl l.length)
  refine ⟨nodes, ?_, fun p => ?_⟩
  · have hforward : getForward list.nodes (some h) 0 = .done (linkAt list.nodes 0 h) :=
      getForward_spec (by rw [hw.header_height]; decide)
    unfold skiplist_free
    dsimp only
    rw [hw.header, hforward, Outcome.done_bind, Store.free_live (hlive h List.mem_cons_self), Outcome.done_bind, hsweep]
    rfl
  · rw [Store.live_swept hcell, Store.drop_live, hall, List.mem_cons]
    rintro ⟨⟨hph, rfl | hp⟩, hnot⟩
    · exact hph rfl
    · exact hnot hp

/-- Whatever calls were made on a new list, there is a node in memory for each key and the header, and
`skiplist_free` frees each of them once. -/
theorem skiplist_free_of_run {compare : K → K → Int} (horder : TotalOrder compare) (ops : List (Op K V))
    {random_level : Nat → Nat} (hlevels : ∀ n, 1 ≤ random_level n ∧ random_level n ≤ SKIPLIST_MAXLEVEL)
    {fuel : Nat} (hfuel : ops.length < fuel) :
    ∃ list list' as nodes, skiplist_new true true compare = .done (some list) ∧
      execAll fuel random_level (some list) ops = .done (some list', as) ∧
      list'.nodes.Blocks (list'.length + 1) ∧
      Outcome.Returns (fun fuel => skiplist_free fuel (some list')) (some nodes) ∧ ∀ p, ¬ nodes.Live p := by
  classical
  obtain ⟨list, hnew, hcompare, hw⟩ := new_wellFormed (V := V) compare
  obtain ⟨list', l', as, hrun, hw', hcompare', hfull⟩ :=
    execAll_full (hcompare ▸ horder) hw represents_empty (new_full hnew) ops hlevels (by simpa using hfuel)
  have horder' : TotalOrder list'.compare := by
    rw [hcompare', hcompare]
    exact horder
  obtain ⟨nodes, hfree, hnone⟩ := skiplist_free_spec horder' hw' hfull
  exact ⟨list, list', as, nodes, hnew, hrun, hfull, ⟨_, hfree⟩, hnone⟩

theorem skiplist_free_sample : ∃ (list list' : skiplist Nat Nat) (as : List (Answer Nat))
    (nodes : Store (skiplist_node Nat Nat)), skiplist_new true true compareNat = .done (some list) ∧
    execAll 4 (fun n => n % 2 + 1) (some list) [.insert 2 7, .insert 1 8, .delete 2] = .done (some list', as) ∧
    list'.nodes.Blocks (list'.length + 1) ∧
    Outcome.Returns (fun fuel => skiplist_free fuel (some list')) (some nodes) ∧ ∀ p, ¬ nodes.Live p :=
  skiplist_free_of_run compareNat_order [.insert 2 7, .insert 1 8, .delete 2]
    (fun n => by simp only [SKIPLIST_MAXLEVEL]; omega) (by decide)

end Akio.Skiplist
