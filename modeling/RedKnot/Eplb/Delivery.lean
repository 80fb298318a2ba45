import RedKnot.Eplb.Agreement

/-! After the exchange every slot holds the old weights of the expert that the new map puts
there. -/

namespace RedKnot.Eplb

open Function List Option

namespace Migration

variable {m : Migration} {r s d e x y i j numTensors : Nat} {α : Type}

theorem slot_injective (xhere : x ∈ m.localRange r) (yhere : y ∈ m.localRange r)
    (same : x % m.numLocal = y % m.numLocal) : x = y := by
  have left := Nat.div_add_mod x m.numLocal
  have right := Nat.div_add_mod y m.numLocal
  rw [rank_of_local xhere] at left
  rw [rank_of_local yhere] at right
  omega

theorem get_set (t : Tensors α) (v : α) (xhere : x ∈ m.localRange r) (yhere : y ∈ m.localRange r) :
    m.get (m.set t j y v) i x = if i = j ∧ x = y then v else m.get t i x := by
  unfold get set
  by_cases tensor : i = j
  · subst tensor
    by_cases same : x = y
    · simp [same]
    · have other : x % m.numLocal ≠ y % m.numLocal :=
        fun slot => same (slot_injective xhere yhere slot)
      simp [same, other]
  · simp [tensor]

theorem get_copy (source target : Tensors α) (src : Nat) (xhere : x ∈ m.localRange r)
    (yhere : y ∈ m.localRange r) (tensor : i < numTensors) :
    m.get (m.copy numTensors source target src y) i x =
      if x = y then m.get source i src else m.get target i x := by
  suffices all : ∀ (l : List Nat) (target : Tensors α),
      m.get (l.foldl (fun t i => m.set t i y (m.get source i src)) target) i x =
        if i ∈ l ∧ x = y then m.get source i src else m.get target i x by
    rw [copy, all]
    simp [tensor]
  intro l
  induction l with
  | nil => simp
  | cons k l ih =>
    intro target
    rw [foldl_cons, ih, get_set _ _ xhere yhere]
    by_cases later : i ∈ l
    · by_cases same : x = y
      · simp [later, same]
      · simp [same]
    · by_cases here : i = k
      · subst here
        by_cases same : x = y
        · simp [same]
        · simp [same]
      · simp [later, here]

def origin (m : Migration) (r x : Nat) : Nat :=
  match m.recvCase r x with
  | some .unchanged => x
  | some (.sameGpu src) => src
  | _ => m.firstSlot ((m.chosenSrcRank r (m.new x)).getD 0) (m.new x)

section

variable (rank : r < m.worldSize)
include rank

section

variable (here : x ∈ m.localRange r)
include here

theorem origin_p2p
    (found : m.recvCase r x = some (.p2p s)) : m.origin r x = m.firstSlot s (m.new x) := by
  obtain ⟨-, -, chosen⟩ := source_of_p2p rank here found
  simp only [origin, found, chosen, getD_some]

theorem recvCase_facts {c : RecvCase}
    (found : m.recvCase r x = some c) :
    match c with
    | .unchanged => m.old x = m.new x
    | .sameGpu src => src ∈ m.localRange r ∧ m.old src = m.new x
    | .freeRider src => src ∈ m.localRange r ∧ r ∉ m.allSrcRanks (m.new x) ∧
        m.new src = m.new x ∧ m.First r src
    | .p2p s => s ∈ m.allSrcRanks (m.new x) := by
  rcases recvCase_spec rank here with ⟨eq, old⟩ | ⟨src, local', eq, old⟩ |
    ⟨src, local', eq, other, -, same, first⟩ | ⟨s, source, eq, -⟩
  · cases found.symm.trans eq
    exact old
  · cases found.symm.trans eq
    exact ⟨local', old⟩
  · cases found.symm.trans eq
    exact ⟨local', other, same, first⟩
  · cases found.symm.trans eq
    exact source

theorem origin_freeRider {src : Nat} (found : m.recvCase r x = some (.freeRider src)) :
    src ∈ m.localRange r ∧ (∃ s, m.recvCase r src = some (.p2p s)) ∧
      m.origin r x = m.origin r src := by
  obtain ⟨local', other, same, first⟩ := recvCase_facts rank here found
  have need := mem_needCommDstRanks.mpr ⟨rank, other, x, here, rfl⟩
  obtain ⟨s, -, chosen⟩ :=
    exists_chosenSrcRank need (allSrcRanks_ne_nil (local_iff.mp ⟨rank, here⟩).1)
  have posted : m.recvCase r src = some (.p2p s) := by
    rw [recvCase_p2p rank local', same]
    exact ⟨other, first, chosen⟩
  refine ⟨local', ⟨s, posted⟩, ?_⟩
  rw [origin_p2p rank local' posted, same]
  simp only [origin, found, chosen, getD_some]

theorem origin_spec : m.origin r x < m.numPhysical ∧ m.old (m.origin r x) = m.new x := by
  have found : ∀ {q y : Nat}, q < m.worldSize → y ∈ m.localRange q → m.old y = m.new x →
      y < m.numPhysical ∧ m.old y = m.new x :=
    fun qrank yhere has => ⟨(local_iff.mp ⟨qrank, yhere⟩).1, has⟩
  have sent : ∀ {s : Nat}, s ∈ m.allSrcRanks (m.new x) → m.firstSlot s (m.new x) < m.numPhysical ∧
      m.old (m.firstSlot s (m.new x)) = m.new x := by
    intro s source
    obtain ⟨-, slot, has⟩ := firstSlot_spec source
    exact found (mem_allSrcRanks.mp source).1 slot has
  rcases recvCase_spec rank here with ⟨eq, old⟩ | ⟨src, local', eq, old⟩ |
    ⟨src, local', eq, other, -, -, -⟩ | ⟨s, source, eq, -⟩
  · simpa only [origin, eq] using found rank here old
  · simpa only [origin, eq] using found rank local' old
  · have need := mem_needCommDstRanks.mpr ⟨rank, other, x, here, rfl⟩
    obtain ⟨s, source, chosen⟩ :=
      exists_chosenSrcRank need (allSrcRanks_ne_nil (local_iff.mp ⟨rank, here⟩).1)
    simpa only [origin, eq, chosen, getD_some] using sent source
  · rw [origin_p2p rank here eq]
    exact sent source

end

end

def Due (m : Migration) (weights : Nat → Tensors α) (r i x : Nat) (v : α) : Prop :=
  v = m.get (weights (m.origin r x / m.numLocal)) i (m.origin r x)

section

variable (weights : Nat → Tensors α)

theorem due_perform (rank : r < m.worldSize) (tensor : i < numTensors) (here : x ∈ m.localRange r)
    (cases : List (Nat × RecvCase)) (known : ∀ y c, (y, c) ∈ cases → (y, c) ∈ m.casesOf r) :
    ∀ w : Work α, ((∃ src, (x, .sameGpu src) ∈ cases) ∨ m.Due weights r i x (m.get w.buffers i x)) →
      m.Due weights r i x (m.get
        (cases.foldl (m.perform numTensors (weights r)) w).buffers i x) := by
  induction cases with
  | nil =>
    rintro w (⟨src, missing⟩ | due)
    · cases missing
    · exact due
  | cons c cases ih =>
    obtain ⟨y, c⟩ := c
    intro w before
    rw [foldl_cons]
    refine ih (fun z c member => known z c (mem_cons_of_mem _ member)) _ ?_
    obtain ⟨yhere, found⟩ := mem_casesOf.mp (known y c mem_cons_self)
    have copied : ∀ src, c = .sameGpu src → x = y →
        m.Due weights r i x (m.get (weights r) i src) := by
      rintro src rfl rfl
      obtain ⟨local', -⟩ := recvCase_facts rank here found
      simp only [Due, origin, found, rank_of_local local']
    cases c with
    | sameGpu src =>
      by_cases same : x = y
      · refine .inr ?_
        rw [show (m.perform numTensors (weights r) w (y, .sameGpu src)).buffers =
          m.copy numTensors (weights r) w.buffers src y from rfl, get_copy _ _ _ here yhere tensor,
          if_pos same]
        exact copied src rfl same
      · rcases before with ⟨src', member⟩ | due
        · rcases mem_cons.mp member with head | later
          · exact absurd (Prod.mk.inj head).1 same
          · exact .inl ⟨src', later⟩
        · refine .inr ?_
          simpa only [perform, get_copy _ _ _ here yhere tensor, same, if_false] using due
    | unchanged | freeRider src' | p2p s =>
      exact before.imp_left (Exists.imp fun src member => by simpa using member)

theorem due_receive (here : x ∈ m.localRange r) (ops : List P2POp) :
    ∀ (queue : Nat → List α) (t : Tensors α),
    (∀ j y p, .irecv j y p ∈ ops → y ∈ m.localRange r) →
    (∀ p, Forall₂ (fun op v => ∃ j y, op = .irecv j y p ∧ m.Due weights r j y v)
      (recvsFrom p ops) (queue p)) →
    ((∃ p, .irecv i x p ∈ ops) ∨ m.Due weights r i x (m.get t i x)) →
    m.Due weights r i x (m.get (m.receive ops queue t) i x) := by
  induction ops with
  | nil =>
    rintro queue t - - (⟨p, missing⟩ | due)
    · cases missing
    · exact due
  | cons op ops ih =>
    intro queue t local' agree before
    have local'' : ∀ j y p, .irecv j y p ∈ ops → y ∈ m.localRange r :=
      fun j y p member => local' j y p (mem_cons_of_mem _ member)
    cases op with
    | isend j y p =>
      exact ih queue t local'' agree
        (before.imp_left (Exists.imp fun q member => by simpa using member))
    | irecv j y p =>
      have yhere := local' j y p mem_cons_self
      have first := agree p
      rw [show recvsFrom p (.irecv j y p :: ops) = .irecv j y p :: recvsFrom p ops by
        simp [recvsFrom]] at first
      obtain ⟨v, rest, due, later, eq⟩ := forall₂_cons_left_iff.mp first
      obtain ⟨j', y', same, due⟩ := due
      obtain ⟨rfl, rfl, -⟩ := P2POp.irecv.inj same
      rw [receive, eq]
      refine ih _ _ local'' ?_ ?_
      · intro q
        by_cases peer : q = p
        · subst peer
          simpa using later
        · rw [update_of_ne peer]
          have other := agree q
          rwa [show recvsFrom q (.irecv j y p :: ops) = recvsFrom q ops by
            simp [recvsFrom, Ne.symm peer]] at other
      · rw [get_set _ _ here yhere]
        by_cases target : i = j ∧ x = y
        · obtain ⟨rfl, rfl⟩ := target
          exact .inr (by simpa using due)
        · rw [if_neg target]
          refine before.imp_left (Exists.imp fun q member => ?_)
          rcases mem_cons.mp member with head | later'
          · obtain ⟨hi, hx, -⟩ := P2POp.irecv.inj head
            exact absurd ⟨hi, hx⟩ target
          · exact later'

theorem due_executeCopies (tensor : i < numTensors) (here : x ∈ m.localRange r)
    (buffers : Tensors α) (copies : List (Nat × Nat))
    (good : ∀ a y, (a, y) ∈ copies → y ∈ m.localRange r ∧ m.Due weights r i y (m.get buffers i a)) :
    ∀ t : Tensors α, ((∃ a, (a, x) ∈ copies) ∨ m.Due weights r i x (m.get t i x)) →
      m.Due weights r i x (m.get (m.executeCopies numTensors buffers copies t) i x) := by
  induction copies with
  | nil =>
    rintro t (⟨a, missing⟩ | due)
    · cases missing
    · exact due
  | cons c copies ih =>
    obtain ⟨a, y⟩ := c
    intro t before
    obtain ⟨yhere, due⟩ := good a y mem_cons_self
    refine ih (fun a y member => good a y (mem_cons_of_mem _ member)) _ ?_
    rw [get_copy _ _ _ here yhere tensor]
    by_cases same : x = y
    · subst same
      exact .inr (by simpa using due)
    · rw [if_neg same]
      refine before.imp_left (Exists.imp fun b member => ?_)
      rcases mem_cons.mp member with head | later
      · exact absurd (Prod.mk.inj head).2 same
      · exact later

variable (buffers : Nat → Tensors α)

def workOf (m : Migration) (numTensors r : Nat) : Work α :=
  (m.casesOf r).foldl (m.perform numTensors (weights r)) ⟨buffers r, [], []⟩

theorem exists_plan (numTensors : Nat) (rank : r < m.worldSize) :
    ∃ infos, m.plan numTensors r (weights r) (buffers r) =
        some (m.workOf weights buffers numTensors r, postingOrder infos) ∧
      m.Batch numTensors r infos := by
  obtain ⟨sends, created, batch⟩ := exists_batch numTensors rank
  refine ⟨_, ?_, batch⟩
  have listed : (m.workOf weights buffers numTensors r).infos =
      (m.casesOf r).filterMap (m.recvInfo numTensors) := by
    rw [workOf, (perform_lists _ _ _).1, nil_append]
  rw [← listed, plan, handleRecv, recvCases_eq rank, created]
  rfl

end

theorem mem_postingOrder {infos : List P2POpInfo} {op : P2POp} :
    op ∈ postingOrder infos ↔ ∃ e ops, (e, ops) ∈ infos ∧ op ∈ ops := by
  simp [postingOrder, mem_flatMap]

namespace Batch

variable {infos : List P2POpInfo}

theorem irecv_mem (batch : m.Batch numTensors r infos) {p : Nat} :
    .irecv i x p ∈ postingOrder infos ↔
      i < numTensors ∧ x ∈ m.localRange r ∧ m.recvCase r x = some (.p2p p) := by
  rw [mem_postingOrder]
  constructor
  · rintro ⟨e, ops, member, listed⟩
    rcases batch.of_mem e ops member with ⟨x', here, s, found, -, rfl⟩ | ⟨-, dsts, rfl, -⟩
    · obtain ⟨i', bound, same⟩ := List.mem_map.mp listed
      obtain ⟨rfl, rfl, rfl⟩ := P2POp.irecv.inj same
      exact ⟨mem_range.mp bound, here, found⟩
    · obtain ⟨d, -, listed⟩ := mem_flatMap.mp listed
      obtain ⟨i', -, same⟩ := List.mem_map.mp listed
      cases same
  · rintro ⟨bound, here, found⟩
    exact ⟨_, _, batch.recv_mem x here p found, List.mem_map.mpr ⟨i, mem_range.mpr bound, rfl⟩⟩

theorem peer (batch : m.Batch numTensors r infos) (rank : r < m.worldSize) {op : P2POp}
    (member : op ∈ postingOrder infos) : op.peer < m.worldSize ∧ op.peer ≠ r := by
  obtain ⟨e, ops, info, listed⟩ := mem_postingOrder.mp member
  rcases batch.of_mem e ops info with ⟨x, here, s, found, -, rfl⟩ | ⟨source, dsts, rfl, -, mem⟩
  · obtain ⟨i, -, rfl⟩ := List.mem_map.mp listed
    obtain ⟨source, need, -⟩ := source_of_p2p rank here found
    obtain ⟨-, other, -⟩ := mem_needCommDstRanks.mp need
    exact ⟨(mem_allSrcRanks.mp source).1, fun same => other (same ▸ source)⟩
  · obtain ⟨d, target, listed⟩ := mem_flatMap.mp listed
    obtain ⟨i, -, rfl⟩ := List.mem_map.mp listed
    obtain ⟨drank, other, -⟩ := mem_needCommDstRanks.mp ((mem d).mp target).1
    refine ⟨drank, fun same => ?_⟩
    obtain rfl : d = r := same
    exact other source

end Batch

def Carries (m : Migration) (s d : Nat) : P2POp → P2POp → Prop
  | .irecv i x _, .isend j y _ =>
    i = j ∧ x ∈ m.localRange d ∧ y ∈ m.localRange s ∧ m.old y = m.new x
  | _, _ => False

theorem Matches.carries {a b : P2POp} (matching : m.Matches s d a b) : m.Carries s d a b := by
  cases a with
  | isend => exact matching.elim
  | irecv i x p =>
    cases b with
    | irecv => exact matching.elim
    | isend j y q =>
      obtain ⟨-, -, same, here, source, -, rfl⟩ := matching
      obtain ⟨-, slot, has⟩ := firstSlot_spec source
      exact ⟨same, here, slot, has⟩

theorem forall₂_channel (weights : Nat → Tensors α) (rank : d < m.worldSize)
    {recvs sends : List P2POp}
    (matching : Forall₂ (m.Matches s d) recvs sends) :
    Forall₂ (fun op v => ∃ j y, op = .irecv j y s ∧ m.Due weights d j y v) recvs
      (sends.filterMap (m.payload (weights s))) := by
  induction matching with
  | nil => exact .nil
  | @cons a b recvs sends head _ ih =>
    cases a with
    | isend => exact head.elim
    | irecv i x p =>
      cases b with
      | irecv => exact head.elim
      | isend j y q =>
        obtain ⟨rfl, -, rfl, here, source, found, rfl⟩ := head
        refine .cons ⟨i, x, rfl, ?_⟩ ih
        rw [Due, origin_p2p rank here found, rank_of_local (firstSlot_spec source).2.1]

/-- No rank fails, every receive gets the send that it is meant for and no send is left over, and
every slot ends with the old weights of its new expert. -/
theorem migration_delivers (m : Migration) (numTensors : Nat) (weights buffers : Nat → Tensors α) :
    (∀ r < m.worldSize, ∃ ops, m.batch numTensors weights buffers r = some ops ∧
      ∀ op ∈ ops, op.peer < m.worldSize ∧ op.peer ≠ r) ∧
    (∀ s < m.worldSize, ∀ d < m.worldSize, ∀ sent posted,
      m.batch numTensors weights buffers s = some sent →
      m.batch numTensors weights buffers d = some posted →
      Forall₂ (m.Carries s d) (recvsFrom s posted) (sendsTo d sent)) ∧
    ∀ r < m.worldSize, ∃ final, m.updateExpertWeights numTensors weights buffers r = some final ∧
      ∀ x ∈ m.localRange r, ∃ y < m.numPhysical, m.old y = m.new x ∧
        ∀ i < numTensors, m.get final i x = m.get (weights (y / m.numLocal)) i y := by
  refine ⟨fun r rank => ?_, fun s srank d drank sent posted hsent hposted => ?_, fun r rank => ?_⟩
  · obtain ⟨infos, planned, batch⟩ := exists_plan weights buffers numTensors rank
    exact ⟨_, by rw [Migration.batch, planned, map_some], fun op => batch.peer rank⟩
  · obtain ⟨there, planned, send⟩ := exists_plan weights buffers numTensors srank
    obtain ⟨here, planned', recv⟩ := exists_plan weights buffers numTensors drank
    rw [Migration.batch, planned, map_some, Option.some.injEq] at hsent
    rw [Migration.batch, planned', map_some, Option.some.injEq] at hposted
    rw [← hsent, ← hposted]
    exact (forall₂_matches drank recv send).imp (fun _ _ => Matches.carries)
  · obtain ⟨infos, planned, batch⟩ := exists_plan weights buffers numTensors rank
    refine ⟨_, by rw [updateExpertWeights, planned, map_some], fun x here => ?_⟩
    obtain ⟨bound, has⟩ := origin_spec rank here
    refine ⟨m.origin r x, bound, has, fun i tensor => ?_⟩
    have queues : ∀ p, Forall₂ (fun op v => ∃ j y, op = .irecv j y p ∧ m.Due weights r j y v)
        (recvsFrom p (postingOrder infos)) (m.channel numTensors weights buffers r p) := by
      intro p
      unfold channel
      split
      · rename_i prank
        obtain ⟨there, planned', send⟩ := exists_plan weights buffers numTensors prank
        rw [Migration.batch, planned', map_some, getD_some]
        exact forall₂_channel weights rank (forall₂_matches rank batch send)
      · rename_i outside
        have none : recvsFrom p (postingOrder infos) = [] := by
          rw [recvsFrom, filter_eq_nil_iff]
          intro op member
          have peer := (batch.peer rank member).1
          cases op with
          | isend => simp
          | irecv j y q =>
            have other : q ≠ p := fun same => outside (same ▸ peer)
            simpa using other
        rw [none]
        exact .nil
    have received : ∀ y ∈ m.localRange r, (∃ src, m.recvCase r y = some (.sameGpu src)) ∨
        (∃ s, m.recvCase r y = some (.p2p s)) →
          m.Due weights r i y (m.get (m.receive (postingOrder infos)
          (m.channel numTensors weights buffers r) (m.workOf weights buffers numTensors r).buffers)
            i y) := by
      intro y yhere filled
      refine due_receive weights yhere _ _ _
        (fun j z p member => (batch.irecv_mem.mp member).2.1) queues ?_
      rcases filled with ⟨src, found⟩ | ⟨s, found⟩
      · exact .inr (due_perform weights rank tensor yhere _ (fun _ _ member => member) _
          (.inl ⟨src, mem_casesOf.mpr ⟨yhere, found⟩⟩))
      · exact .inl ⟨s, batch.irecv_mem.mpr ⟨tensor, yhere, found⟩⟩
    have copies : (m.workOf weights buffers numTensors r).copies =
      (m.casesOf r).filterMap copyOf := by
      rw [workOf, (perform_lists _ _ _).2, nil_append]
    refine due_executeCopies weights tensor here _ _ ?_ _ ?_
    · intro a y member
      rw [copies, mem_filterMap] at member
      obtain ⟨⟨z, c⟩, listed, copied⟩ := member
      obtain ⟨zhere, found⟩ := mem_casesOf.mp listed
      cases c with
      | unchanged => cases copied
      | sameGpu src =>
        cases copied
        exact ⟨zhere, received _ zhere (.inl ⟨src, found⟩)⟩
      | freeRider src =>
        cases copied
        obtain ⟨local', posted, same⟩ := origin_freeRider rank zhere found
        refine ⟨zhere, ?_⟩
        rw [Due, same]
        exact received _ local' (.inr posted)
      | p2p s =>
        cases copied
        exact ⟨zhere, received _ zhere (.inr ⟨s, found⟩)⟩
    · rw [copies]
      rcases recvCase_spec rank here with ⟨eq, -⟩ | ⟨src, -, eq, -⟩ | ⟨src, -, eq, -⟩ |
        ⟨s, -, eq, -⟩
      · right
        simp only [Due, origin, eq, rank_of_local here]
      all_goals
        exact .inl ⟨_, mem_filterMap.mpr ⟨_, mem_casesOf.mpr ⟨here, eq⟩, rfl⟩⟩

/-- The ranks swap experts 0 and 2, and expert 1 of rank 0 gives way to a second copy of 2. -/
def swapAndCopy : Migration :=
  ⟨2, 1, 2, [0, 1, 2, 3], [2, 2, 0, 3], by decide, rfl, rfl, by decide⟩

/-- The weights of slot `x` of rank `r` are named `10 * r + x`. -/
theorem swapAndCopy_delivers : ∃ final, swapAndCopy.updateExpertWeights 1
      (fun r _ x => 10 * r + x) (fun _ _ _ => 0) 0 = some final ∧
    ∀ x < 2, swapAndCopy.get final 0 x = 10 := by
  obtain ⟨final, updated, slots⟩ :=
    (migration_delivers swapAndCopy 1 (fun r _ x => 10 * r + x) (fun _ _ _ => 0)).2.2 0 (by decide)
  refine ⟨final, updated, fun x small => ?_⟩
  have both : ∀ x < 2, x ∈ swapAndCopy.localRange 0 ∧ swapAndCopy.new x = 2 := by decide
  obtain ⟨y, inside, has, got⟩ := slots x (both x small).1
  have only : ∀ y < 4, swapAndCopy.old y = 2 → y = 2 := by decide
  obtain rfl := only y inside (has.trans (both x small).2)
  exact got 0 (by decide)

end Migration

end RedKnot.Eplb
