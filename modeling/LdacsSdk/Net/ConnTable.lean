import LdacsSdk.Core.Sifting
import LdacsSdk.Library.Runs
import LdacsSdk.Net.Connection

/-!
# The table of connections

A context keeps its connections in a heap by the time of their last activity. Registering sifts
up and reactivating sifts down, the latter for an odd role only; removing a connection moves the
last one into its slot and sifts it down only. In every run the nodes know their slots and the
heap holds what is registered; it stays in order where no factor grows past a child's without a
sift and no connection is moved below one that has been inactive for a shorter time.
-/
namespace LdacsSdk

open Library

/-- `sock_roles`; a UDP role has no entry in `role_propts`. -/
inductive SockRoles where
  | udpClient | udpServer | tcpClient | tcpv6Client | tcpServer | tcpv6Server
  deriving DecidableEq, Repr

/-- The number of a role. -/
def SockRoles.value : SockRoles → ℕ
  | .udpClient => 0
  | .udpServer => 1
  | .tcpClient => 2
  | .tcpv6Client => 3
  | .tcpServer => 4
  | .tcpv6Server => 5

/-- `s_r & 1`. -/
def SockRoles.odd (sR : SockRoles) : Bool := sR.value % 2 == 1

/-- `MAX_HEAP`. -/
def maxHeap : ℕ := 8192

namespace ConnTable

/-- `connection_register`. -/
def connectionRegister (hd : HeapDesc) (bc factor : ℕ) : Option (HeapDesc × NetStatus) :=
  if hd.heapSize ≥ maxHeap then some (hd, .error)
  else (heapInsert hd bc factor).map fun hd' => (hd', .ok)

/-- The last node takes the slot `heapIdx`, and the heap is one slot shorter. -/
def fillFromLast (hd : HeapDesc) (heapIdx : ℕ) : HeapDesc :=
  let hd' := (hd.setHps heapIdx (hd.hps (hd.heapSize - 1))).setIdx heapIdx
  { hd' with heapSize := hd.heapSize - 1 }

/-- `connection_unregister`; a connection that is not in the heap is a null pointer. -/
def connectionUnregister (hd : HeapDesc) (bc : ℕ) : Option HeapDesc :=
  if hd.heapSize ≥ 1 then
    match getHeap hd bc with
    | none => none
    | some connHp =>
      let heapIdx := (hd.node connHp).heapIdx
      (heapBubbleDown (fillFromLast hd heapIdx) heapIdx).map Prod.fst
  else none

/-- `conn_hp->factor = factor`. -/
def setFactor (hd : HeapDesc) (connHp factor : ℕ) : HeapDesc :=
  { hd with node := Function.update hd.node connHp { hd.node connHp with factor } }

/-- `connecion_set_reactivated` at the time `now`. -/
def connecionSetReactivated (role : ℕ → SockRoles) (hd : HeapDesc) (bc now : ℕ) :
    Option HeapDesc :=
  match getHeap hd bc with
  | none => some hd
  | some connHp =>
    let hd' := setFactor hd connHp now
    if (role bc).odd then (heapBubbleDown hd' (hd'.node connHp).heapIdx).map Prod.fst
    else some hd'

/-- `connecion_set_expired`; of what `connection_close` does only the unregistering, its last
step, is about the table. -/
def connecionSetExpired (role : ℕ → SockRoles) (hd : HeapDesc) (bc : ℕ) : Option HeapDesc :=
  match getHeap hd bc with
  | none => some hd
  | some connHp =>
    let hd' := setFactor hd connHp 0
    let sifted :=
      if (role bc).odd then (heapBubbleUp hd' (hd'.node connHp).heapIdx).map Prod.fst
      else some hd'
    sifted.bind fun hd'' => connectionUnregister hd'' bc

end ConnTable

/-- The table with the connections registered and not yet unregistered, and the time read last. -/
structure ConnTable where
  hdConns : HeapDesc
  registered : List ℕ
  clock : ℕ

/-- An empty table. -/
def initConnTable : ConnTable := { hdConns := initHeapDesc, registered := [], clock := 0 }

/-- The operations on the table, with the time they read. -/
inductive TableOp where
  | register (bc now : ℕ)
  | reactivate (bc now : ℕ)
  | expire (bc : ℕ)
  | unregister (bc : ℕ)

/-- One operation; one that fails an assertion or follows a null pointer has no successor. -/
def tableStep (role : ℕ → SockRoles) (s : ConnTable) : TableOp → Option ConnTable
  | .register bc now =>
    (ConnTable.connectionRegister s.hdConns bc now).map fun (hd, status) =>
      { hdConns := hd
        registered := if status = .ok then bc :: s.registered else s.registered
        clock := now }
  | .reactivate bc now =>
    (ConnTable.connecionSetReactivated role s.hdConns bc now).map fun hd =>
      { s with hdConns := hd, clock := now }
  | .expire bc =>
    (ConnTable.connecionSetExpired role s.hdConns bc).map fun hd =>
      { s with hdConns := hd, registered := s.registered.erase bc }
  | .unregister bc =>
    (ConnTable.connectionUnregister s.hdConns bc).map fun hd =>
      { s with hdConns := hd, registered := s.registered.erase bc }

/-- The clock does not go back, and only a registered connection is unregistered. -/
def TableCall (s : ConnTable) : TableOp → Prop
  | .register _ now => s.clock ≤ now
  | .reactivate _ now => s.clock ≤ now
  | .expire _ => True
  | .unregister bc => bc ∈ s.registered

instance (s : ConnTable) : (op : TableOp) → Decidable (TableCall s op)
  | .register _ _ => inferInstanceAs (Decidable (_ ≤ _))
  | .reactivate _ _ => inferInstanceAs (Decidable (_ ≤ _))
  | .expire _ => inferInstanceAs (Decidable True)
  | .unregister _ => inferInstanceAs (Decidable (_ ∈ _))

namespace ConnTable

/-- The slot of a connection. -/
def slot (hd : HeapDesc) (bc : ℕ) : Option ℕ :=
  (getHeap hd bc).map fun connHp => (hd.node connHp).heapIdx

/-- No child of a connection was last active before `now`. -/
def ChildrenSince (hd : HeapDesc) (bc now : ℕ) : Prop :=
  ∀ i ∈ slot hd bc, ∀ j < hd.heapSize, 0 < j → parent j = i → now ≤ hd.factor j

/-- The last connection was not last active before the one above the slot of `bc`. -/
def LastFits (hd : HeapDesc) (bc : ℕ) : Prop :=
  ∀ i ∈ slot hd bc, 0 < i → i < hd.heapSize - 1 →
    hd.factor (parent i) ≤ hd.factor (hd.heapSize - 1)

instance (hd : HeapDesc) (bc now : ℕ) : Decidable (ChildrenSince hd bc now) :=
  inferInstanceAs (Decidable (∀ i ∈ slot hd bc, _))

instance (hd : HeapDesc) (bc : ℕ) : Decidable (LastFits hd bc) :=
  inferInstanceAs (Decidable (∀ i ∈ slot hd bc, _))

end ConnTable

/-- The operations that leave a heap in order. -/
def KeepsOrder (role : ℕ → SockRoles) (s : ConnTable) : TableOp → Prop
  | .register _ _ => True
  | .reactivate bc now => (role bc).odd ∨ ConnTable.ChildrenSince s.hdConns bc now
  | .expire bc => (role bc).odd ∨ ConnTable.LastFits s.hdConns bc
  | .unregister bc => ConnTable.LastFits s.hdConns bc

instance (role : ℕ → SockRoles) (s : ConnTable) : (op : TableOp) → Decidable (KeepsOrder role s op)
  | .register _ _ => inferInstanceAs (Decidable True)
  | .reactivate _ _ => inferInstanceAs (Decidable (_ ∨ _))
  | .expire _ => inferInstanceAs (Decidable (_ ∨ _))
  | .unregister bc => inferInstanceAs (Decidable (ConnTable.LastFits s.hdConns bc))

namespace ConnTable

open HeapDesc

variable {hd : HeapDesc} {bc i j : ℕ}

/-! ### Removing a connection -/

theorem fill_entry (hj : j < hd.heapSize - 1) :
    (fillFromLast hd i).entry j = hd.entry (Equiv.swap i (hd.heapSize - 1) j) := by
  have hentry : (fillFromLast hd i).entry j =
      (hd.setHps i (hd.hps (hd.heapSize - 1))).entry j := entry_setIdx i j
  rw [hentry]
  by_cases hji : j = i
  · rw [hji, Equiv.swap_apply_left]
    simp [entry, HeapDesc.obj, HeapDesc.factor, setHps]
  · rw [Equiv.swap_apply_of_ne_of_ne hji hj.ne]
    simp [entry, HeapDesc.obj, HeapDesc.factor, setHps, hji]

theorem fill_wired (h : hd.Wired) (hi : i < hd.heapSize) : (fillFromLast hd i).Wired := by
  have hlast : hd.heapSize - 1 < hd.heapSize := by omega
  have hhps (k : ℕ) : (hd.setHps i (hd.hps (hd.heapSize - 1))).hps k =
      if k = i then hd.hps (hd.heapSize - 1) else hd.hps k := by
    simp only [setHps, Function.update_apply]
  apply wired_setIdx
    { hd.setHps i (hd.hps (hd.heapSize - 1)) with heapSize := hd.heapSize - 1 } i
  · intro k hk he
    dsimp only at hk he
    rw [hhps, hhps, if_pos rfl] at he
    split_ifs at he with hki
    · exact hki
    · have := h.hps_inj (by omega) hlast he
      omega
  · intro k hk hki
    dsimp only at hk ⊢
    rw [hhps, if_neg hki]
    exact h.idxEq k (by omega)
  · intro k hk
    dsimp only at hk ⊢
    rw [hhps]
    split_ifs
    · exact h.allocLt _ hlast
    · exact h.allocLt k (by omega)

theorem fill_entries (hi : i < hd.heapSize) :
    (hd.entry i :: (fillFromLast hd i).entries).Perm hd.entries := by
  obtain ⟨m, hm⟩ : ∃ m, hd.heapSize = m + 1 := ⟨hd.heapSize - 1, by omega⟩
  have hfill : (fillFromLast hd i).entries = (List.range m).map (hd.entry ∘ Equiv.swap i m) := by
    have hsize : (fillFromLast hd i).heapSize = m := by simp [fillFromLast, hm]
    unfold entries
    rw [hsize]
    apply List.map_congr_left
    intro k hk
    have hkm : k < hd.heapSize - 1 := by
      rw [hm]
      exact List.mem_range.mp hk
    rw [fill_entry hkm, hm]
    rfl
  have hperm := map_swap_last_perm hd.entry (Nat.le_of_lt_succ (hm ▸ hi))
  rw [hfill]
  unfold entries
  rwa [hm]

/-- Removing a connection takes out its entry; in order is what is left when it was in order with
the last one in its place, but for the edges below. -/
theorem connectionUnregister_spec (h : hd.Wired) (hi : hd.FirstAt bc i) :
    ∃ hd', connectionUnregister hd bc = some hd' ∧ hd'.Wired ∧
      (hd.entry i :: hd'.entries).Perm hd.entries ∧
      (DownOrder (hd.heapSize - 1) (hd.factor ∘ Equiv.swap i (hd.heapSize - 1)) i →
        hd'.Ordered) := by
  have hlt := hi.lt
  have hsize : (fillFromLast hd i).heapSize = hd.heapSize - 1 := rfl
  obtain ⟨hd', k, hloop, hre, hord⟩ := bubbleDown_spec (i := i) (fill_wired h hlt)
    (Nat.lt_succ_of_le (Nat.sub_le _ i))
  have hunregister : connectionUnregister hd bc = some hd' := by
    unfold connectionUnregister
    rw [if_pos (by omega), hi.getHeap_eq]
    simp only [h.idxEq i hlt]
    exact congrArg (Option.map Prod.fst) hloop
  refine ⟨hd', hunregister, hre.wired, (hre.entriesPerm.cons _).trans (fill_entries hlt), ?_⟩
  intro hdown
  rw [hsize] at hord
  exact hord (hdown.congr fun j hj => congrArg Prod.snd (fill_entry hj))

/-- The last connection fits in slot `i` when it is not older than the one above. -/
theorem fill_downOrder (hord : hd.Ordered) (hlt : i < hd.heapSize)
    (hfits : 0 < i → i < hd.heapSize - 1 → hd.factor (parent i) ≤ hd.factor (hd.heapSize - 1)) :
    DownOrder (hd.heapSize - 1) (hd.factor ∘ Equiv.swap i (hd.heapSize - 1)) i := by
  obtain ⟨m, hm⟩ : ∃ m, hd.heapSize = m + 1 := ⟨hd.heapSize - 1, by omega⟩
  unfold Ordered at hord
  rw [hm] at hord hfits hlt ⊢
  exact hord.remove (Nat.le_of_lt_succ hlt) hfits

theorem mem_slot (h : hd.Wired) (hi : hd.FirstAt bc i) : i ∈ slot hd bc := by
  simp [slot, hi.getHeap_eq, h.idxEq i hi.lt]

/-- A last connection older than the one above slot `i` stays there, out of order. -/
theorem unregister_misfit (h : hd.Wired) (hi : hd.FirstAt bc i) (hpos : 0 < i)
    (hin : i < hd.heapSize - 1) (hold : hd.factor (hd.heapSize - 1) < hd.factor (parent i))
    (hacross : ∀ j, 0 < j → j < hd.heapSize → parent j = i → hd.factor (parent i) ≤ hd.factor j)
    {hd' : HeapDesc} (hd'Eq : connectionUnregister hd bc = some hd') : ¬hd'.Ordered := by
  have hpi := parent_lt hpos
  have hfactor (j : ℕ) (hj : j < hd.heapSize - 1) (hji : j ≠ i) :
      (fillFromLast hd i).factor j = hd.factor j := by
    have hentry : (fillFromLast hd i).entry j = _ := fill_entry hj
    rw [Equiv.swap_apply_of_ne_of_ne hji hj.ne] at hentry
    exact congrArg Prod.snd hentry
  have hself : (fillFromLast hd i).factor i = hd.factor (hd.heapSize - 1) := by
    have hentry : (fillFromLast hd i).entry i = _ := fill_entry hin
    rw [Equiv.swap_apply_left] at hentry
    exact congrArg Prod.snd hentry
  have hstays : connectionUnregister hd bc = some (fillFromLast hd i) := by
    unfold connectionUnregister
    rw [if_pos (by omega), hi.getHeap_eq]
    simp only [h.idxEq i hi.lt, heapBubbleDown]
    rw [bubbleDown_stop]
    · rfl
    · intro j hj hjn hji
      have hjn' : j < hd.heapSize - 1 := hjn
      have hpj := parent_lt hj
      rw [hself, hfactor j hjn' (by omega)]
      exact hold.le.trans (hacross j hj (by omega) hji)
  rw [hstays] at hd'Eq
  obtain rfl := Option.some.inj hd'Eq
  intro hord
  have hedge := hord i hpos hin
  rw [hself, hfactor _ (by omega) (by omega)] at hedge
  exact Nat.not_le.mpr hold hedge

/-! ### Changing a factor -/

section Factors

variable {now : ℕ} {role : ℕ → SockRoles}

theorem setFactor_wired (h : hd.Wired) (p : ℕ) : (setFactor hd p now).Wired := by
  refine ⟨fun k hk => ?_, h.allocLt⟩
  have hidx := h.idxEq k hk
  simp only [setFactor, Function.update_apply]
  split_ifs with he
  · rw [← he]
    exact hidx
  · exact hidx

theorem setFactor_entry_self : (setFactor hd (hd.hps i) now).entry i = (hd.obj i, now) := by
  simp [entry, HeapDesc.obj, HeapDesc.factor, setFactor]

theorem setFactor_entry_of_ne (h : hd.Wired) (hi : i < hd.heapSize) (hj : j < hd.heapSize)
    (hne : j ≠ i) : (setFactor hd (hd.hps i) now).entry j = hd.entry j := by
  have hnode : hd.hps j ≠ hd.hps i := mt (h.hps_inj hj hi) hne
  simp [entry, HeapDesc.obj, HeapDesc.factor, setFactor, hnode]

theorem setFactor_obj (hd : HeapDesc) (p j : ℕ) : (setFactor hd p now).obj j = hd.obj j := by
  simp only [HeapDesc.obj, setFactor, Function.update_apply]
  split_ifs with he
  · rw [he]
  · rfl

theorem setFactor_objects (hd : HeapDesc) (p : ℕ) :
    (setFactor hd p now).entries.map Prod.fst = hd.entries.map Prod.fst := by
  unfold entries
  rw [List.map_map, List.map_map]
  exact List.map_congr_left fun j _ => setFactor_obj hd p j

theorem setFactor_firstAt (hi : hd.FirstAt bc i) (p : ℕ) :
    (setFactor hd p now).FirstAt bc i := by
  refine ⟨hi.lt, (setFactor_obj hd p i).trans hi.objEq, fun j hj => ?_⟩
  rw [setFactor_obj]
  exact hi.first j hj

/-- The factors after a change are those before and the new one. -/
theorem setFactor_mem (h : hd.Wired) (hi : i < hd.heapSize) {e : ℕ × ℕ}
    (he : e ∈ (setFactor hd (hd.hps i) now).entries) : e.2 = now ∨ e ∈ hd.entries := by
  obtain ⟨j, hj, rfl⟩ := List.mem_map.mp he
  have hjn : j < hd.heapSize := List.mem_range.mp hj
  by_cases hji : j = i
  · rw [hji, setFactor_entry_self]
    exact .inl rfl
  · rw [setFactor_entry_of_ne h hi hjn hji]
    exact .inr (List.mem_map_of_mem hj)

/-- Reactivating a connection changes its factor; in order is what is left when the factor did not
shrink and the heap is sifted or no child is older. -/
theorem connecionSetReactivated_spec (role : ℕ → SockRoles) (now : ℕ) (h : hd.Wired)
    (hi : hd.FirstAt bc i) :
    ∃ hd', connecionSetReactivated role hd bc now = some hd' ∧
      Rearranged (setFactor hd (hd.hps i) now) hd' ∧
      (hd.Ordered → hd.factor i ≤ now → (role bc).odd ∨ ChildrenSince hd bc now →
        hd'.Ordered) := by
  have hlt := hi.lt
  have hwired : (setFactor hd (hd.hps i) now).Wired := setFactor_wired h _
  have hself : (setFactor hd (hd.hps i) now).factor i = now :=
    congrArg Prod.snd setFactor_entry_self
  have hdown (hord : hd.Ordered) (hle : hd.factor i ≤ now) :
      DownOrder (setFactor hd (hd.hps i) now).heapSize (setFactor hd (hd.hps i) now).factor i :=
    hord.raise (fun j hj hne => congrArg Prod.snd (setFactor_entry_of_ne h hlt hj hne))
      (hle.trans hself.ge)
  have hidx : ((setFactor hd (hd.hps i) now).node (hd.hps i)).heapIdx = i := hwired.idxEq i hlt
  unfold connecionSetReactivated
  rw [hi.getHeap_eq]
  dsimp only
  rw [hidx]
  split_ifs with hodd
  · obtain ⟨hd', k, hloop, hre, hord⟩ := bubbleDown_spec (i := i) hwired
      (Nat.lt_succ_of_le (Nat.sub_le _ i))
    exact ⟨hd', congrArg (Option.map Prod.fst) hloop, hre,
      fun hbefore hle _ => hord (hdown hbefore hle)⟩
  · refine ⟨_, rfl, .refl hwired, fun hbefore hle hkeeps => ?_⟩
    have hsince := hkeeps.resolve_left hodd
    apply (hdown hbefore hle).heap
    intro j hj hjn hji
    have hslot := mem_slot h hi
    have hij : j ≠ i := by
      have := parent_lt hj
      omega
    have hsame : (setFactor hd (hd.hps i) now).factor j = hd.factor j :=
      congrArg Prod.snd (setFactor_entry_of_ne h hlt hjn hij)
    rw [hself, hsame]
    exact hsince i hslot j hjn hj hji

/-- An odd role is sifted up until nothing above it is older than time zero, so that the last
connection fits in the slot where it stops. -/
theorem expire_sifted (h : hd.Wired) (hi : hd.FirstAt bc i) (hzero : hd.factor i = 0) :
    ∃ hd₁ k hd', heapBubbleUp hd i = some (hd₁, k) ∧ connectionUnregister hd₁ bc = some hd' ∧
      hd'.Wired ∧ (hd.entry i :: hd'.entries).Perm hd.entries ∧
      (UpOrder hd.heapSize hd.factor i → hd'.Ordered) := by
  obtain ⟨hd₁, k, hloop, hre, hord, hk, hat, hfront⟩ :=
    bubbleUp_spec h hi.lt (Nat.lt_succ_self i)
  have hsize := hre.heapSize_eq
  have hfirst : hd₁.FirstAt bc k := by
    refine ⟨hsize ▸ hk.trans_lt hi.lt, (congrArg Prod.fst hat).trans hi.objEq, fun j hj => ?_⟩
    have hobj : hd₁.obj j = hd.obj j := congrArg Prod.fst (hfront j hj)
    rw [hobj]
    exact hi.first j (hj.trans_le hk)
  obtain ⟨hd', hunregister, hwired', hperm, hord'⟩ := connectionUnregister_spec hre.wired hfirst
  rw [hat] at hperm
  refine ⟨hd₁, k, hd', hloop, hunregister, hwired', hperm.trans hre.entriesPerm, fun hup => ?_⟩
  have hsifted := hord hup
  apply hord' (fill_downOrder hsifted hfirst.lt _)
  intro hpos _
  have habove := hsifted k hpos hfirst.lt
  have hzero₁ : hd₁.factor k = 0 := (congrArg Prod.snd hat).trans hzero
  rw [hzero₁] at habove
  exact habove.trans (Nat.zero_le _)

/-- Expiring a connection removes it. -/
theorem connecionSetExpired_spec (role : ℕ → SockRoles) (h : hd.Wired) (hi : hd.FirstAt bc i) :
    ∃ hd', connecionSetExpired role hd bc = some hd' ∧ hd'.Wired ∧
      (bc :: hd'.entries.map Prod.fst).Perm (hd.entries.map Prod.fst) ∧
      (∀ e ∈ hd'.entries, e.2 = 0 ∨ e ∈ hd.entries) ∧
      (hd.Ordered → (role bc).odd ∨ LastFits hd bc → hd'.Ordered) := by
  have hlt := hi.lt
  obtain ⟨hd₁, hhd₁⟩ : ∃ hd₁, hd₁ = setFactor hd (hd.hps i) 0 := ⟨_, rfl⟩
  have hwired : hd₁.Wired := hhd₁ ▸ setFactor_wired h _
  have hsize : hd₁.heapSize = hd.heapSize := by rw [hhd₁]; rfl
  have hself : hd₁.entry i = (bc, 0) := by rw [hhd₁, setFactor_entry_self, hi.objEq]
  have hother (j : ℕ) (hj : j < hd.heapSize) (hne : j ≠ i) : hd₁.entry j = hd.entry j := by
    rw [hhd₁]
    exact setFactor_entry_of_ne h hlt hj hne
  have hobjects : hd₁.entries.map Prod.fst = hd.entries.map Prod.fst := by
    rw [hhd₁, setFactor_objects]
  have hfirst : hd₁.FirstAt bc i := hhd₁ ▸ setFactor_firstAt hi _
  have hhps : hd₁.hps i = hd.hps i := by rw [hhd₁]; rfl
  -- what is left is what stood beside the connection
  have hleft {hd' : HeapDesc} (hperm : (hd₁.entry i :: hd'.entries).Perm hd₁.entries) :
      (bc :: hd'.entries.map Prod.fst).Perm (hd.entries.map Prod.fst) ∧
        ∀ e ∈ hd'.entries, e.2 = 0 ∨ e ∈ hd.entries := by
    rw [hself] at hperm
    constructor
    · rw [← hobjects]
      exact hperm.map Prod.fst
    · intro e he
      exact setFactor_mem h hlt (hhd₁ ▸ hperm.subset (List.mem_cons_of_mem _ he))
  unfold connecionSetExpired
  rw [hi.getHeap_eq]
  dsimp only
  rw [← hhd₁, ← hhps, hwired.idxEq i hfirst.lt]
  split_ifs with hodd
  · obtain ⟨hd₂, k, hd', hloop, hunregister, hwired', hperm, hord⟩ :=
      expire_sifted hwired hfirst (congrArg Prod.snd hself)
    refine ⟨hd', by simp [hloop, hunregister], hwired', (hleft hperm).1, (hleft hperm).2,
      fun hbefore _ => hord ?_⟩
    rw [hsize]
    apply hbefore.lower
    · intro j hj hne
      exact congrArg Prod.snd (hother j hj hne)
    · exact (congrArg Prod.snd hself).trans_le (Nat.zero_le _)
  · obtain ⟨hd', hunregister, hwired', hperm, hord⟩ := connectionUnregister_spec hwired hfirst
    refine ⟨hd', hunregister, hwired', (hleft hperm).1, (hleft hperm).2,
      fun hbefore hkeeps => hord ?_⟩
    rw [hsize]
    have hfits := hkeeps.resolve_left hodd i (mem_slot h hi)
    apply (fill_downOrder hbefore hlt hfits).congr
    intro j hj
    have hswap : Equiv.swap i (hd.heapSize - 1) j < hd.heapSize ∧
        Equiv.swap i (hd.heapSize - 1) j ≠ i := by
      rw [Equiv.swap_apply_def]
      split_ifs <;> omega
    exact congrArg Prod.snd (hother _ hswap.1 hswap.2)

end Factors

/-! ### Runs -/

/-- What holds of the table in every run: its nodes know their slots, it holds what is registered,
and no factor is later than the clock. -/
structure Kept (s : ConnTable) : Prop where
  wired : s.hdConns.Wired
  objects : (s.hdConns.entries.map Prod.fst).Perm s.registered
  past : ∀ e ∈ s.hdConns.entries, e.2 ≤ s.clock

variable {role : ℕ → SockRoles} {s t : ConnTable}

theorem kept_init : initConnTable.Kept := by
  refine ⟨wired_init, ?_, ?_⟩
  · exact List.Perm.refl []
  · intro e he
    cases he

theorem Kept.found (h : s.Kept) {bc : ℕ} (hbc : bc ∈ s.registered) :
    ∃ i, s.hdConns.FirstAt bc i := exists_firstAt (h.objects.mem_iff.mpr hbc)

/-- Removing one of the objects of the table. -/
theorem Kept.erased (h : s.Kept) {objects : List ℕ} {bc : ℕ}
    (hperm : (bc :: objects).Perm (s.hdConns.entries.map Prod.fst)) :
    objects.Perm (s.registered.erase bc) := by
  have herase := (hperm.trans h.objects).erase bc
  rwa [List.erase_cons_head] at herase

/-- An operation has a successor, which is kept, and in order when the operation keeps the
order. -/
def Continues (role : ℕ → SockRoles) (s : ConnTable) (op : TableOp) : Prop :=
  ∃ t, tableStep role s op = some t ∧ t.Kept ∧
    (s.hdConns.Ordered → KeepsOrder role s op → t.hdConns.Ordered)

theorem Kept.register (h : s.Kept) {now : ℕ} (hnow : s.clock ≤ now) (bc : ℕ) :
    Continues role s (.register bc now) := by
  have hpast (e : ℕ × ℕ) (he : e ∈ s.hdConns.entries) : e.2 ≤ now := (h.past e he).trans hnow
  by_cases hfull : s.hdConns.heapSize ≥ maxHeap
  · refine ⟨{ s with clock := now }, ?_, ⟨h.wired, h.objects, hpast⟩, fun hord _ => hord⟩
    simp [tableStep, connectionRegister, hfull]
  · obtain ⟨hd', hinsert, hwired, hperm, hord⟩ := heapInsert_spec h.wired bc now
    refine ⟨{ hdConns := hd', registered := bc :: s.registered, clock := now }, ?_,
      ⟨hwired, (hperm.map Prod.fst).trans (h.objects.cons bc), fun e he => ?_⟩,
      fun hbefore _ => hord hbefore⟩
    · simp [tableStep, connectionRegister, hfull, hinsert]
    · rcases List.mem_cons.mp (hperm.subset he) with rfl | he
      · exact le_rfl
      · exact hpast e he

theorem Kept.reactivate (h : s.Kept) {now : ℕ} (hnow : s.clock ≤ now) (bc : ℕ) :
    Continues role s (.reactivate bc now) := by
  cases hfound : getHeap s.hdConns bc with
  | none =>
    refine ⟨{ s with clock := now }, ?_,
      ⟨h.wired, h.objects, fun e he => (h.past e he).trans hnow⟩, fun hord _ => hord⟩
    simp [tableStep, connecionSetReactivated, hfound]
  | some p =>
    obtain ⟨i, hi, -⟩ := getHeap_eq_some_iff.mp hfound
    obtain ⟨hd', hreactivate, hre, hord⟩ := connecionSetReactivated_spec role now h.wired hi
    refine ⟨{ s with hdConns := hd', clock := now }, by simp [tableStep, hreactivate],
      ⟨hre.wired, ?_, fun e he => ?_⟩, fun hbefore hkeeps => hord hbefore ?_ hkeeps⟩
    · have hobjects := hre.entriesPerm.map Prod.fst
      rw [setFactor_objects] at hobjects
      exact hobjects.trans h.objects
    · rcases setFactor_mem h.wired hi.lt (hre.entriesPerm.subset he) with hsame | hold
      · exact hsame.le
      · exact (h.past e hold).trans hnow
    · have hmem : s.hdConns.entry i ∈ s.hdConns.entries :=
        List.mem_map_of_mem (List.mem_range.mpr hi.lt)
      exact (h.past _ hmem).trans hnow

theorem Kept.expire (h : s.Kept) (bc : ℕ) : Continues role s (.expire bc) := by
  cases hfound : getHeap s.hdConns bc with
  | none =>
    have hout : bc ∉ s.registered := mt h.objects.mem_iff.mpr (getHeap_eq_none_iff.mp hfound)
    refine ⟨s, ?_, h, fun hord _ => hord⟩
    simp [tableStep, connecionSetExpired, hfound, List.erase_of_not_mem hout]
  | some p =>
    obtain ⟨i, hi, -⟩ := getHeap_eq_some_iff.mp hfound
    obtain ⟨hd', hexpire, hwired, hperm, hmem, hord⟩ := connecionSetExpired_spec role h.wired hi
    refine ⟨{ s with hdConns := hd', registered := s.registered.erase bc },
      by simp [tableStep, hexpire], ⟨hwired, h.erased hperm, fun e he => ?_⟩, hord⟩
    rcases hmem e he with hzero | hold
    · exact hzero.trans_le (Nat.zero_le _)
    · exact h.past e hold

theorem Kept.unregister (h : s.Kept) {bc : ℕ} (hbc : bc ∈ s.registered) :
    Continues role s (.unregister bc) := by
  obtain ⟨i, hi⟩ := h.found hbc
  obtain ⟨hd', hunregister, hwired, hperm, hord⟩ := connectionUnregister_spec h.wired hi
  have hobjects := hperm.map Prod.fst
  rw [List.map_cons, entry_fst, hi.objEq] at hobjects
  refine ⟨{ s with hdConns := hd', registered := s.registered.erase bc },
    by simp [tableStep, hunregister], ⟨hwired, h.erased hobjects, fun e he => ?_⟩,
    fun hbefore hkeeps => hord ?_⟩
  · exact h.past e (hperm.subset (List.mem_cons_of_mem _ he))
  · exact fill_downOrder hbefore hi.lt (hkeeps i (mem_slot h.wired hi))

/-- Every operation of a run goes on. -/
theorem Kept.step (role : ℕ → SockRoles) (h : s.Kept) {op : TableOp} (hcall : TableCall s op) :
    Continues role s op := by
  cases op with
  | register bc now => exact h.register hcall bc
  | reactivate bc now => exact h.reactivate hcall bc
  | expire bc => exact h.expire bc
  | unregister bc => exact h.unregister hcall

/-- Only operations that keep the order leave a heap in order. -/
theorem Kept.keepsOrder (h : s.Kept) (hord : s.hdConns.Ordered) {op : TableOp}
    (hcall : TableCall s op) (hstep : tableStep role s op = some t) (ht : t.hdConns.Ordered) :
    KeepsOrder role s op := by
  have hslot {bc i : ℕ} (hi : i ∈ slot s.hdConns bc) : s.hdConns.FirstAt bc i := by
    obtain ⟨p, hp, rfl⟩ := Option.map_eq_some_iff.mp hi
    obtain ⟨k, hk, rfl⟩ := getHeap_eq_some_iff.mp hp
    rwa [h.wired.idxEq k hk.lt]
  have hacross {i : ℕ} (hpos : 0 < i) (j : ℕ) (hj : 0 < j) (hjn : j < s.hdConns.heapSize)
      (hji : parent j = i) : s.hdConns.factor (parent i) ≤ s.hdConns.factor j := by
    have hij : i < j := hji ▸ parent_lt hj
    exact (hord i hpos (hij.trans hjn)).trans (hji ▸ hord j hj hjn)
  cases op with
  | register bc now => trivial
  | reactivate bc now =>
    by_cases hodd : (role bc).odd
    · exact .inl hodd
    · refine .inr fun i hi j hjn hj hji => ?_
      have hfirst := hslot hi
      have hij : i < j := hji ▸ parent_lt hj
      obtain rfl : { s with
          hdConns := setFactor s.hdConns (s.hdConns.hps i) now
          clock := now } = t := by
        simpa [tableStep, connecionSetReactivated, hfirst.getHeap_eq, hodd] using hstep
      have hedge := ht j hj hjn
      have hself : (setFactor s.hdConns (s.hdConns.hps i) now).factor i = now :=
        congrArg Prod.snd setFactor_entry_self
      have hother : (setFactor s.hdConns (s.hdConns.hps i) now).factor j = s.hdConns.factor j :=
        congrArg Prod.snd (setFactor_entry_of_ne h.wired hfirst.lt hjn hij.ne')
      rwa [hji, hself, hother] at hedge
  | expire bc =>
    by_cases hodd : (role bc).odd
    · exact .inl hodd
    · refine .inr fun i hi hpos hin => ?_
      have hfirst := hslot hi
      have hsize : (setFactor s.hdConns (s.hdConns.hps i) 0).heapSize = s.hdConns.heapSize := rfl
      have hother (j : ℕ) (hj : j < s.hdConns.heapSize) (hne : j ≠ i) :
          (setFactor s.hdConns (s.hdConns.hps i) 0).factor j = s.hdConns.factor j :=
        congrArg Prod.snd (setFactor_entry_of_ne h.wired hfirst.lt hj hne)
      have hpi := parent_lt hpos
      obtain ⟨hd', hunregister, rfl⟩ : ∃ hd', connectionUnregister
          (setFactor s.hdConns (s.hdConns.hps i) 0) bc = some hd' ∧
            { s with hdConns := hd', registered := s.registered.erase bc } = t := by
        simpa [tableStep, connecionSetExpired, hfirst.getHeap_eq, hodd] using hstep
      by_contra hmisfit
      apply unregister_misfit (setFactor_wired h.wired _) (setFactor_firstAt hfirst _) hpos hin
        _ _ hunregister ht
      · rw [hsize, hother (parent i) (by omega) (by omega), hother _ (by omega) (by omega)]
        exact lt_of_not_ge hmisfit
      · intro j hj hjn hji
        have hij : i < j := hji ▸ parent_lt hj
        rw [hother j hjn hij.ne', hother (parent i) (by omega) (by omega)]
        exact hacross hpos j hj hjn hji
  | unregister bc =>
    intro i hi hpos hin
    obtain ⟨hd', hunregister, rfl⟩ := Option.map_eq_some_iff.mp hstep
    by_contra hmisfit
    exact unregister_misfit h.wired (hslot hi) hpos hin (lt_of_not_ge hmisfit)
      (hacross hpos) hunregister ht

/-- The heap of a table stays a heap: its factors are in order, every node knows its slot, it holds
what is registered, and the root has been inactive for as long as any other. -/
structure StaysHeap (s : ConnTable) : Prop where
  ordered : ∀ i, 0 < i → i < s.hdConns.heapSize →
    s.hdConns.factor (parent i) ≤ s.hdConns.factor i
  idxEq : ∀ i < s.hdConns.heapSize, (s.hdConns.node (s.hdConns.hps i)).heapIdx = i
  contents : ((List.range s.hdConns.heapSize).map s.hdConns.obj).Perm s.registered
  oldest : ∀ i < s.hdConns.heapSize, s.hdConns.factor 0 ≤ s.hdConns.factor i

theorem Kept.contents (h : s.Kept) :
    ((List.range s.hdConns.heapSize).map s.hdConns.obj).Perm s.registered := by
  have hobjects := h.objects
  unfold entries at hobjects
  rwa [List.map_map] at hobjects

theorem kept_of_reaches (h : Reaches (tableStep role) TableCall initConnTable s) : s.Kept := by
  apply h.invariant (P := Kept) kept_init
  intro s op t hs hcall hstep
  obtain ⟨t', ht', hkept', -⟩ := hs.step role hcall
  obtain rfl : t' = t := Option.some.inj (ht'.symm.trans hstep)
  exact hkept'

/-- **The connection heap stays a heap** in every run in which an even role is reactivated only
above children that are not older, and the last connection fits wherever one is removed. -/
theorem connection_heap_stays_heap (role : ℕ → SockRoles) (s : ConnTable)
    (h : Reaches (tableStep role) (fun s op => TableCall s op ∧ KeepsOrder role s op)
      initConnTable s) : s.StaysHeap := by
  have hkept : s.Kept ∧ s.hdConns.Ordered := by
    apply h.invariant (P := fun s => s.Kept ∧ s.hdConns.Ordered)
    · refine ⟨kept_init, fun i _ hi => ?_⟩
      cases hi
    · rintro s op t ⟨hs, hord⟩ ⟨hcall, hkeeps⟩ hstep
      obtain ⟨t', ht', hkept', hord'⟩ := hs.step role hcall
      obtain rfl : t' = t := Option.some.inj (ht'.symm.trans hstep)
      exact ⟨hkept', hord' hord hkeeps⟩
  exact ⟨hkept.2, hkept.1.wired.idxEq, hkept.1.contents, fun i hi => hkept.2.root_le hi⟩

/-- Three connections of different roles: one is reactivated above younger ones and sifted down,
one is unregistered from the middle and one expires. -/
theorem connection_heap_stays_heap_three : ∃ s,
    Reaches (tableStep fun bc => if bc = 0 then .tcpv6Client else .tcpServer)
      (fun s op => TableCall s op ∧
        KeepsOrder (fun bc => if bc = 0 then .tcpv6Client else .tcpServer) s op)
      initConnTable s ∧ s.registered = [0] ∧ s.hdConns.factor 0 = 9 ∧ s.StaysHeap := by
  obtain ⟨s, hs, hreg, hfactor⟩ : ∃ s,
      runOps (tableStep fun bc => if bc = 0 then .tcpv6Client else .tcpServer)
        (fun s op => TableCall s op ∧
          KeepsOrder (fun bc => if bc = 0 then .tcpv6Client else .tcpServer) s op)
        initConnTable [.register 0 5, .register 1 6, .register 2 7, .reactivate 0 9,
          .unregister 1, .expire 2] = some s ∧
        s.registered = [0] ∧ s.hdConns.factor 0 = 9 := ⟨_, rfl, rfl, rfl⟩
  have hrun := reaches_of_runOps _ hs
  exact ⟨s, hrun, hreg, hfactor, connection_heap_stays_heap _ s hrun⟩

/-- Two connections of a TCP server, the older of which is reactivated: it stays the root. -/
theorem reactivated_server_stays_root : ∃ s,
    runOps (tableStep fun _ => .tcpServer) TableCall initConnTable
      [.register 0 5, .register 1 6, .reactivate 0 9] = some s ∧
      s.hdConns.obj 0 = 0 ∧ s.hdConns.factor 0 = 9 ∧ s.hdConns.factor 1 = 6 ∧ ¬s.StaysHeap := by
  refine ⟨_, rfl, rfl, rfl, rfl, fun h => ?_⟩
  have hroot := h.oldest 1 (by decide)
  revert hroot
  decide

/-- What does not depend on the order holds in every run. -/
theorem connection_table_kept (role : ℕ → SockRoles) (s : ConnTable)
    (h : Reaches (tableStep role) TableCall initConnTable s) :
    (∀ i < s.hdConns.heapSize, (s.hdConns.node (s.hdConns.hps i)).heapIdx = i) ∧
      ((List.range s.hdConns.heapSize).map s.hdConns.obj).Perm s.registered := by
  have hkept := kept_of_reaches h
  exact ⟨hkept.wired.idxEq, hkept.contents⟩

end ConnTable

end LdacsSdk
