import LeafageEvm.Reservations
import LeafageEvm.Tempo.ValidatorConfigV2

/-! The indexes of the second validator registry agree with its records, whatever calls are made. -/

namespace LeafageEvm.Tempo
open List Function

/-! ### What the indexes are about -/

namespace ValidatorRecord

def key (v : ValidatorRecord) : Option Nat := some v.publicKey

def activeAddress (v : ValidatorRecord) : Option Address :=
  if v.deactivatedAtHeight = 0 then some v.validatorAddress else none

def activeIngress (prim : ValidatorPrimitives) (v : ValidatorRecord) : Option Nat :=
  if v.deactivatedAtHeight = 0 then (prim.ingressKey v.ingress).toOption else none

def pointer (v : ValidatorRecord) : Option Nat := some v.activeIdx

end ValidatorRecord

/-- The pointers back of the records, by their entries in the list of active records. -/
def placeOf (pointers : Nat → Option Nat) (entry : Nat) : Nat := if entry = 0 then 0 else (pointers (entry - 1)).getD 0

theorem placeOf_update {pointers : Nat → Option Nat} {i n : Nat} :
    placeOf (update pointers i (some n)) = update (placeOf pointers) (i + 1) n := by
  funext entry
  cases entry with
  | zero => simp [placeOf]
  | succ j => by_cases hj : j = i <;> simp [placeOf, hj]

open ValidatorRecord

namespace ValidatorConfigV2

variable {prim : ValidatorPrimitives} {env : ValidatorEnv} {registry next : ValidatorConfigV2} {v w : ValidatorRecord}
  {i j idx hash : Nat} {sender addr : Address}

def place (registry : ValidatorConfigV2) : Nat → Nat := placeOf (pick pointer registry.validators)

abbrev keyAt (registry : ValidatorConfigV2) : Nat → Option Nat := pick ValidatorRecord.key registry.validators

abbrev addressAt (registry : ValidatorConfigV2) : Nat → Option Address :=
  pick activeAddress registry.validators

abbrev ingressAt (prim : ValidatorPrimitives) (registry : ValidatorConfigV2) : Nat → Option Nat :=
  pick (activeIngress prim) registry.validators

/-- The indexes agree with the records. -/
structure Tracked (prim : ValidatorPrimitives) (registry : ValidatorConfigV2) : Prop where
  places : Placed registry.activeIndices registry.place
  live : ∀ i, registry.place (i + 1) ≠ 0 ↔ (registry.addressAt i).isSome = true
  keys : Pointed registry.keyAt registry.pubkeyToIndex
  addresses : Pointed registry.addressAt registry.addressToIndex
  ingresses : Reserved (registry.ingressAt prim) registry.activeIngressIps
  parses : ∀ i, (registry.addressAt i).isSome = true → (registry.ingressAt prim i).isSome = true

/-- The indexes of the next registry agree with its records, and no public key gets lost. -/
structure Advance (prim : ValidatorPrimitives) (registry next : ValidatorConfigV2) : Prop where
  tracked : Tracked prim next
  keeps : ∀ i k, registry.keyAt i = some k → ∃ j, next.keyAt j = some k

theorem Advance.of_keys (h : Tracked prim next) (hkeys : next.keyAt = registry.keyAt) : Advance prim registry next where
  tracked := h
  keeps := by
    intro i k hi
    rw [hkeys]
    exact ⟨i, hi⟩

theorem tracked_start : Tracked prim {} where
  places := by
    intro _ p
    simp [place, placeOf, pick]
  live := by simp [place, placeOf, pick]
  keys := by
    intro i k h
    simp [pick] at h
  addresses := by
    intro i k h
    simp [pick] at h
  ingresses := ⟨by simp [pick], by simp [pick]⟩
  parses := by simp [pick]

/-! ### The checks -/

theorem getActiveValidator_eq_ok :
    registry.getActiveValidator idx = .ok v ↔ registry.validators[idx]? = some v ∧ v.deactivatedAtHeight = 0 := by
  rw [getActiveValidator, bind_eq_ok]
  constructor
  · rintro ⟨u, hget, hactive⟩
    obtain ⟨_, hzero, rfl⟩ := map_ok hactive
    exact ⟨orError_eq_ok.mp hget, require_eq_ok.mp hzero⟩
  · rintro ⟨hget, hactive⟩
    exact ⟨v, orError_eq_ok.mpr hget, map_eq_ok.mpr ⟨(), require_eq_ok.mpr hactive, rfl⟩⟩

theorem requireUniqueIngress_eq_ok {ingress : String} (h : registry.requireUniqueIngress prim ingress = .ok hash) :
    prim.ingressKey ingress = .ok hash ∧ registry.activeIngressIps hash = false := by
  obtain ⟨_, hkey, h⟩ := bind_ok h
  obtain ⟨_, hfree, rfl⟩ := map_ok h
  exact ⟨hkey, require_eq_ok.mp hfree⟩

section
variable (hget : registry.validators[idx]? = some v) (hactive : v.deactivatedAtHeight = 0)
include hget hactive
theorem addressAt_of_active : registry.addressAt idx = some v.validatorAddress := by
  rw [addressAt, pick_of_get hget, activeAddress, if_pos hactive]

theorem ingressAt_of_active
    (hkey : prim.ingressKey v.ingress = .ok hash) : registry.ingressAt prim idx = some hash := by
  rw [ingressAt, pick_of_get hget, activeIngress, if_pos hactive, hkey]
  rfl
end

namespace Tracked

variable {pubkey : Nat}

section
variable (h : Tracked prim registry)
include h
theorem key_free (hnew : registry.pubkeyToIndex pubkey = 0) : registry.keyAt i ≠ some pubkey := by
  intro hi
  have := h.keys i pubkey hi
  omega

/-- No active record has an address whose entry is empty or leads to a deactivated record. -/
theorem address_free
    (hnew : ¬ (registry.addressToIndex addr ≠ 0 ∧ registry.deactivatedAt (registry.addressToIndex addr - 1) = 0)) :
    registry.addressAt i ≠ some addr := by
  intro hi
  have hindex := h.addresses i addr hi
  obtain ⟨v, hget, hv⟩ := pick_eq_some.mp hi
  rw [activeAddress] at hv
  split at hv
  · next hactive =>
      apply hnew
      rw [hindex, deactivatedAt]
      simp [hget, hactive]
  · cases hv

/-! ### Records are appended -/

theorem append {height deactivated : Nat} {ingress egress : String} {fee : Address} {ips : Nat → Bool} (hkey : registry.pubkeyToIndex pubkey = 0)
    (haddr : ∀ i, registry.addressAt i ≠ some addr)
    (hips : Reserved (update (registry.ingressAt prim) registry.validators.length
      (if deactivated = 0 then (prim.ingressKey ingress).toOption else none)) ips)
    (hparses : deactivated = 0 → (prim.ingressKey ingress).toOption.isSome = true) :
    Advance prim registry
      { (registry.appendValidator addr pubkey ingress egress fee height deactivated).1 with activeIngressIps := ips } := by
  have hplace0 : registry.place (registry.validators.length + 1) = 0 := by
    simp [place, placeOf, pick]
  have hpush : ∀ {K : Type} (f : ValidatorRecord → Option K) u,
      pick f (registry.validators ++ [u]) = update (pick f registry.validators) registry.validators.length (f u) :=
    fun f u => pick_push
  refine ⟨?_, fun i k hi => ⟨i, ?_⟩⟩
  rotate_left
  · show pick _ (registry.validators ++ [_]) i = some k
    rw [hpush, update_of_ne _]
    · exact hi
    · rintro rfl
      rw [keyAt, pick_length] at hi
      cases hi
  constructor
  · show Placed (if deactivated = 0 then registry.activeIndices ++ [registry.validators.length + 1]
      else registry.activeIndices) (placeOf (pick _ (registry.validators ++ [_])))
    rw [hpush, pointer, placeOf_update]
    split
    · rw [length_append]
      exact h.places.push hplace0
    · have hsame : update registry.place (registry.validators.length + 1) 0 = registry.place :=
        update_eq_self_iff.mpr hplace0.symm
      exact hsame.symm ▸ h.places
  · intro i
    show placeOf (pick _ (registry.validators ++ [_])) (i + 1) ≠ 0 ↔ (pick _ (registry.validators ++ [_]) i).isSome = true
    rw [hpush, hpush, pointer, placeOf_update, activeAddress]
    by_cases hi : i = registry.validators.length
    · by_cases hd : deactivated = 0 <;> simp [hi, hd]
    · rw [update_of_ne (by omega), update_of_ne hi]
      exact h.live i
  · show Pointed (pick _ (registry.validators ++ [_])) _
    rw [hpush]
    exact h.keys.write fun j _ => h.key_free hkey
  · show Pointed (pick _ (registry.validators ++ [_])) (update registry.addressToIndex addr _)
    rw [hpush, activeAddress]
    split
    · exact h.addresses.write fun j _ => haddr j
    · exact (h.addresses.redirect haddr).drop
  · show Reserved (pick _ (registry.validators ++ [_])) ips
    rw [hpush]
    exact hips
  · intro i
    show (pick _ (registry.validators ++ [_]) i).isSome = true → (pick _ (registry.validators ++ [_]) i).isSome = true
    rw [hpush, hpush, activeAddress, activeIngress]
    by_cases hi : i = registry.validators.length
    · subst hi
      by_cases hd : deactivated = 0
      · simpa [hd] using hparses hd
      · simp [hd]
    · rw [update_of_ne hi, update_of_ne hi]
      exact h.parses i
end

/-! ### A record is written in place -/

end Tracked

theorem updateIngressIpTracking_eq_ok {oldIngress newIngress : String} {holder : Nat → Option Nat}
    (h : Reserved holder registry.activeIngressIps)
    (hold : ∀ key, prim.ingressKey oldIngress = .ok key → holder idx = some key)
    (hmove : registry.updateIngressIpTracking prim oldIngress newIngress = .ok next) :
    ∃ ips key, next = { registry with activeIngressIps := ips } ∧ prim.ingressKey newIngress = .ok key ∧
      Reserved (update holder idx (some key)) ips := by
  obtain ⟨oldHash, holdHash, hmove⟩ := bind_ok hmove
  obtain ⟨newHash, hnewHash, hmove⟩ := bind_ok hmove
  have hheld := hold oldHash holdHash
  split at hmove
  · next hne =>
      obtain ⟨_, hfree, rfl⟩ := map_ok hmove
      refine ⟨_, newHash, rfl, hnewHash, ?_⟩
      have hreleased := h.release hheld
      have hfree' : update registry.activeIngressIps oldHash false newHash = false := by
        rw [update_of_ne hne.symm]
        exact require_eq_ok.mp hfree
      have hmoved := hreleased.reserve hfree' (update_self idx none holder)
      rwa [update_idem] at hmoved
  · next heq =>
      cases hmove
      refine ⟨_, newHash, rfl, hnewHash, ?_⟩
      rw [← not_not.mp heq, ← hheld, update_eq_self]
      exact h

namespace Tracked

section
variable (h : Tracked prim registry)
include h
section
variable (hget : registry.validators[idx]? = some v)
include hget
theorem inPlace {index : Address → Nat} {ips : Nat → Bool} (hkey : w.publicKey = v.publicKey)
    (hpointer : w.activeIdx = v.activeIdx) (hactive : w.deactivatedAtHeight = v.deactivatedAtHeight)
    (haddresses : Pointed (update registry.addressAt idx w.activeAddress) index)
    (hingresses : Reserved (update (registry.ingressAt prim) idx (w.activeIngress prim)) ips)
    (hparses : (w.activeAddress).isSome = true → (w.activeIngress prim).isSome = true) :
    Advance prim registry
      { registry with validators := registry.validators.set idx w, addressToIndex := index, activeIngressIps := ips } := by
  set rows := registry.validators.set idx w
  have hkeys : pick key rows = registry.keyAt :=
    pick_set_same hget (congrArg some hkey)
  have hplace : placeOf (pick pointer rows) = registry.place :=
    congrArg placeOf (pick_set_same hget (congrArg some hpointer))
  have haddress : pick activeAddress rows =
      update registry.addressAt idx w.activeAddress := pick_set hget
  have hingress : pick (activeIngress prim) rows =
      update (registry.ingressAt prim) idx (w.activeIngress prim) := pick_set hget
  refine .of_keys ?_ hkeys
  constructor
  · show Placed registry.activeIndices (placeOf _)
    rw [hplace]
    exact h.places
  · intro i
    show placeOf _ (i + 1) ≠ 0 ↔ (pick _ _ i).isSome = true
    rw [hplace, h.live i, haddress]
    by_cases hi : i = idx
    · subst hi
      rw [update_self, addressAt, pick_of_get hget, activeAddress, activeAddress, hactive]
      split <;> rfl
    · rw [update_of_ne hi]
  · show Pointed (pick _ _) registry.pubkeyToIndex
    rw [hkeys]
    exact h.keys
  · show Pointed (pick _ _) index
    rw [haddress]
    exact haddresses
  · show Reserved (pick _ _) ips
    rw [hingress]
    exact hingresses
  · intro i
    show (pick _ _ i).isSome = true → (pick _ _ i).isSome = true
    rw [haddress, hingress]
    by_cases hi : i = idx
    · rw [hi, update_self, update_self]
      exact hparses
    · rw [update_of_ne hi, update_of_ne hi]
      exact h.parses i

theorem same_addresses (hsame : w.activeAddress = v.activeAddress) :
    Pointed (update registry.addressAt idx w.activeAddress) registry.addressToIndex := by
  rw [hsame, ← pick_of_get (f := activeAddress) hget, update_eq_self]
  exact h.addresses

/-- The ingress endpoint of a record that keeps it. -/
theorem same_ingresses (hsame : w.activeIngress prim = v.activeIngress prim) :
    Reserved (update (registry.ingressAt prim) idx (w.activeIngress prim)) registry.activeIngressIps := by
  rw [hsame, ← pick_of_get (f := activeIngress prim) hget, update_eq_self]
  exact h.ingresses

theorem active_parses (hactive : v.deactivatedAtHeight = 0) : (v.activeIngress prim).isSome = true := by
  rw [← pick_of_get (f := activeIngress prim) hget]
  exact h.parses idx (by rw [addressAt_of_active hget hactive]; rfl)
end

theorem setFeeRecipient {fee : Address} (hcall : registry.setFeeRecipient sender idx fee = .ok next) :
    Advance prim registry next := by
  obtain ⟨v, hv, hcall⟩ := bind_ok hcall
  obtain ⟨_, hcall⟩ := rest_ok hcall
  obtain ⟨_, _, rfl⟩ := map_ok hcall
  obtain ⟨hget, hactive⟩ := getActiveValidator_eq_ok.mp hv
  have hparses := h.active_parses hget hactive
  exact h.inPlace hget rfl rfl rfl (h.same_addresses hget rfl) (h.same_ingresses hget rfl) fun _ => hparses

theorem setIpAddresses {ingress egress : String} (hcall : registry.setIpAddresses prim sender idx ingress egress = .ok next) :
    Advance prim registry next := by
  obtain ⟨v, hv, hcall⟩ := bind_ok hcall
  iterate 3 obtain ⟨_, hcall⟩ := rest_ok hcall
  obtain ⟨_, hmove, rfl⟩ := map_ok hcall
  obtain ⟨hget, hactive⟩ := getActiveValidator_eq_ok.mp hv
  obtain ⟨_, key, rfl, hkey, hips⟩ := updateIngressIpTracking_eq_ok h.ingresses
    (fun key hkey => ingressAt_of_active hget hactive hkey) hmove
  have hingress : { v with ingress, egress }.activeIngress prim = some key := by
    rw [activeIngress, if_pos hactive, hkey]
    rfl
  rw [← hingress] at hips
  exact h.inPlace hget rfl rfl rfl (h.same_addresses hget rfl) hips fun _ => by rw [hingress]; rfl

theorem transferValidatorOwnership {newAddress : Address}
    (hcall : registry.transferValidatorOwnership sender idx newAddress = .ok next) : Advance prim registry next := by
  obtain ⟨v, hv, hcall⟩ := bind_ok hcall
  iterate 2 obtain ⟨_, hcall⟩ := rest_ok hcall
  obtain ⟨_, hnew, rfl⟩ := map_ok hcall
  obtain ⟨hget, hactive⟩ := getActiveValidator_eq_ok.mp hv
  have hfree := require_eq_ok.mp (check_ok hnew).2
  have hparses := h.active_parses hget hactive
  refine h.inPlace hget rfl rfl rfl ?_ (h.same_ingresses hget rfl) fun _ => hparses
  -- the old address is erased before the new one is written
  rw [activeAddress, if_pos hactive]
  have hwritten := (h.addresses.erase (addressAt_of_active hget hactive)).write (i := idx) (k := newAddress) fun j hj => by
    rw [update_of_ne hj]
    exact h.address_free hfree
  rwa [update_idem] at hwritten
end

end Tracked

/-! ### A record leaves the list of active records -/

theorem pick_swapAndPop {K : Type} {f : ValidatorRecord → Option K} {p : Nat}
    (hf : ∀ v n, f { v with activeIdx := n } = f v) :
    pick f (registry.swapAndPop idx p).validators = pick f registry.validators := by
  rw [swapAndPop]
  rw [pick_modify_same fun v => hf v 0]
  split
  · exact pick_modify_same fun v => hf v _
  · rfl

/-- After swap and pop the pointers lead to the list that is left, which has lost one entry. -/
theorem swapAndPop_places (h : Placed registry.activeIndices registry.place)
    (hget : registry.validators[idx]? = some v) (hlisted : v.activeIdx ≠ 0) :
    Placed (registry.swapAndPop idx v.activeIdx).activeIndices (registry.swapAndPop idx v.activeIdx).place ∧
      ∀ entry, (registry.swapAndPop idx v.activeIdx).place entry ≠ 0 ↔ entry ≠ idx + 1 ∧ registry.place entry ≠ 0 := by
  obtain ⟨p, hp⟩ := Nat.exists_eq_succ_of_ne_zero hlisted
  have hplace : registry.place (idx + 1) = p + 1 := by
    simp [place, placeOf, pick_of_get hget, pointer, hp]
  have hlt : p < registry.activeIndices.length := by
    have := h.le_length (a := idx + 1)
    omega
  have hne : registry.activeIndices ≠ [] := by
    rintro hnil
    simp [hnil] at hlt
  rw [hp, swapAndPop]
  simp only [Nat.succ_eq_add_one, Nat.add_sub_cancel]
  by_cases hlast : p = registry.activeIndices.length - 1
  · rw [if_neg (not_not.mpr hlast)]
    have hplaces : placeOf (pick pointer
        (registry.validators.modify idx fun v => { v with activeIdx := 0 })) =
        update registry.place (idx + 1) 0 := by
      rw [pick_modify hget, pointer, placeOf_update]
      rfl
    show Placed _ (placeOf _) ∧ ∀ entry, placeOf _ entry ≠ 0 ↔ _
    rw [hplaces]
    refine ⟨h.pop (by omega) hne, fun entry => ?_⟩
    rw [update_apply]
    split
    · next heq => simp [heq]
    · next hother => simp [hother]
  · rw [if_pos hlast]
    -- the last entry, which moves to the place that gets free
    obtain ⟨b, hb⟩ : ∃ b, registry.activeIndices[registry.activeIndices.length - 1]? = some b :=
      ⟨_, getElem?_eq_getElem (by omega)⟩
    have hbplace := (h b _).mp hb
    have hbget : registry.activeIndices.getD (registry.activeIndices.length - 1) 0 = b := by
      rw [getD_eq_getElem?_getD, hb, Option.getD_some]
    obtain ⟨k, rfl⟩ : ∃ k, b = k + 1 := by
      refine Nat.exists_eq_succ_of_ne_zero ?_
      rintro rfl
      simp [place, placeOf] at hbplace
    obtain ⟨u, hu⟩ : ∃ u, registry.validators[k]? = some u := by
      cases hget' : registry.validators[k]? with
      | none => simp [place, placeOf, pick, hget'] at hbplace
      | some u => exact ⟨u, rfl⟩
    have hmoved : ∃ u', (registry.validators.modify k fun v => { v with activeIdx := p + 1 })[idx]? = some u' := by
      rw [getElem?_modify, hget]
      exact ⟨_, rfl⟩
    obtain ⟨u', hu'⟩ := hmoved
    rw [hbget]
    simp only [Nat.add_sub_cancel]
    have hplaces : placeOf (pick pointer
        ((registry.validators.modify k fun v => { v with activeIdx := p + 1 }).modify idx fun v =>
          { v with activeIdx := 0 })) =
        update (update registry.place (k + 1) (p + 1)) (idx + 1) 0 := by
      rw [pick_modify hu', pointer, placeOf_update, pick_modify hu, pointer, placeOf_update]
      rfl
    show Placed _ (placeOf _) ∧ ∀ entry, placeOf _ entry ≠ 0 ↔ _
    rw [hplaces]
    refine ⟨h.swap_pop hplace (by omega) (by omega), fun entry => ?_⟩
    rw [update_apply, update_apply]
    split
    · next heq => simp [heq]
    · next hother =>
        split
        · next heq =>
            subst heq
            exact ⟨fun _ => ⟨hother, by omega⟩, fun _ => Nat.succ_ne_zero p⟩
        · simp [hother]

namespace Tracked

section
variable (h : Tracked prim registry)
include h
theorem addValidator {call : AddValidatorCall} {index : Nat}
    (hcall : registry.addValidator prim env sender call = .ok (next, index)) : Advance prim registry next := by
  iterate 2 obtain ⟨_, hcall⟩ := rest_ok hcall
  obtain ⟨_, hkey, hcall⟩ := bind_ok hcall
  obtain ⟨_, haddr, hcall⟩ := bind_ok hcall
  obtain ⟨_, hcall⟩ := rest_ok hcall
  obtain ⟨hash, hingress, hcall⟩ := bind_ok hcall
  obtain ⟨_, _, hcall⟩ := map_ok hcall
  obtain ⟨hhash, hfree⟩ := requireUniqueIngress_eq_ok hingress
  obtain rfl : _ = next := congrArg Prod.fst hcall
  refine h.append (require_eq_ok.mp (check_ok hkey).2)
    (fun i => h.address_free (require_eq_ok.mp (check_ok haddr).2)) ?_ ?_
  · rw [hhash]
    exact h.ingresses.reserve hfree pick_length
  · rw [hhash]
    exact fun _ => rfl

/-- Changes of the configuration do not touch the records. -/
theorem of_config {config : RegistryConfig} {epoch : Nat} :
    Advance prim registry { registry with config, nextNetworkIdentityRotationEpoch := epoch } :=
  .of_keys { h with } rfl

section
variable (hheight : env.blockNumber ≠ 0)
include hheight
theorem deactivateValidator
    (hcall : registry.deactivateValidator prim env sender idx = .ok next) : Advance prim registry next := by
  obtain ⟨v, hv, hcall⟩ := bind_ok hcall
  obtain ⟨_, hcall⟩ := rest_ok hcall
  obtain ⟨hash, hhash, rfl⟩ := map_ok hcall
  obtain ⟨hget, hactive⟩ := getActiveValidator_eq_ok.mp hv
  -- the registry with the record marked, before it leaves the list
  generalize hmarked : ({ registry with
      activeIngressIps := update registry.activeIngressIps hash false
      validators := registry.validators.modify idx fun v =>
        { v with deactivatedAtHeight := env.blockNumber } } : ValidatorConfigV2) = marked
  have hvalidators : marked.validators = registry.validators.modify idx fun v =>
      { v with deactivatedAtHeight := env.blockNumber } := by rw [← hmarked]
  have hplace : marked.place = registry.place := by
    rw [place, place, hvalidators, pick_modify_same]
    intro v
    rfl
  have hget' : marked.validators[idx]? = some { v with deactivatedAtHeight := env.blockNumber } := by
    rw [hvalidators, getElem?_modify, hget]
    simp
  have hlisted : v.activeIdx ≠ 0 := by
    have := (h.live idx).mpr (by rw [addressAt_of_active hget hactive]; rfl)
    simpa [place, placeOf, pick_of_get hget, pointer] using this
  have hkeys : pick key marked.validators = registry.keyAt := by
    rw [hvalidators]
    exact pick_modify_same fun v => rfl
  have haddresses : pick activeAddress marked.validators =
      update registry.addressAt idx none := by
    rw [hvalidators, pick_modify hget, activeAddress, if_neg hheight]
  have hingresses : pick (activeIngress prim) marked.validators =
      update (registry.ingressAt prim) idx none := by
    rw [hvalidators, pick_modify hget, activeIngress, if_neg hheight]
  have hplaced : Placed marked.activeIndices marked.place := by
    rw [hplace, ← hmarked]
    exact h.places
  obtain ⟨hplaces, hrest⟩ := swapAndPop_places hplaced hget' hlisted
  have hmaps : (marked.swapAndPop idx v.activeIdx).pubkeyToIndex = registry.pubkeyToIndex ∧
      (marked.swapAndPop idx v.activeIdx).addressToIndex = registry.addressToIndex ∧
      (marked.swapAndPop idx v.activeIdx).activeIngressIps = update registry.activeIngressIps hash false := by
    rw [swapAndPop, ← hmarked]
    split <;> exact ⟨rfl, rfl, rfl⟩
  refine .of_keys ?_ ((pick_swapAndPop fun v n => rfl).trans hkeys)
  constructor
  · exact hplaces
  · intro i
    show _ ↔ (pick activeAddress (marked.swapAndPop idx v.activeIdx).validators i).isSome = true
    rw [hrest, hplace, h.live i, pick_swapAndPop fun v n => rfl, haddresses]
    by_cases hi : i = idx <;> simp [hi]
  · rw [keyAt, pick_swapAndPop fun v n => rfl, hkeys, hmaps.1]
    exact h.keys
  · rw [addressAt, pick_swapAndPop fun v n => rfl, haddresses, hmaps.2.1]
    exact h.addresses.drop
  · rw [ingressAt, pick_swapAndPop fun v n => rfl, hingresses, hmaps.2.2]
    exact h.ingresses.release (ingressAt_of_active hget hactive hhash)
  · intro i
    rw [addressAt, ingressAt, pick_swapAndPop fun v n => rfl, pick_swapAndPop fun v n => rfl, haddresses, hingresses]
    by_cases hi : i = idx
    · simp [hi]
    · rw [update_of_ne hi, update_of_ne hi]
      exact h.parses i

/-! ### The old identity of a record goes to a record of its own -/

theorem rotateValidator {call : RotateValidatorCall}
    (hcall : registry.rotateValidator prim env sender call = .ok next) : Advance prim registry next := by
  obtain ⟨v, hv, hcall⟩ := bind_ok hcall
  iterate 2 obtain ⟨_, hcall⟩ := rest_ok hcall
  obtain ⟨_, hnew, hcall⟩ := bind_ok hcall
  iterate 3 obtain ⟨_, hcall⟩ := rest_ok hcall
  obtain ⟨_, hmove, rfl⟩ := map_ok hcall
  obtain ⟨hget, hactive⟩ := getActiveValidator_eq_ok.mp hv
  obtain ⟨ips, key, rfl, hkey, hips⟩ := updateIngressIpTracking_eq_ok h.ingresses
    (fun key hkey => ingressAt_of_active hget hactive hkey) hmove
  have hfree : registry.pubkeyToIndex call.publicKey = 0 := require_eq_ok.mp (check_ok hnew).2
  simp only
  generalize hsnapshot : ({ v with
      index := registry.validators.length, activeIdx := 0, deactivatedAtHeight := env.blockNumber } : ValidatorRecord)
    = snapshot
  generalize hrotated : (fun updated : ValidatorRecord =>
      { updated with publicKey := call.publicKey, ingress := call.ingress, egress := call.egress,
                     addedAtHeight := env.blockNumber }) = rotated
  have hlt := (List.getElem?_eq_some_iff.mp hget).1
  have hne : call.idx ≠ registry.validators.length := hlt.ne
  have hold : registry.keyAt call.idx = some v.publicKey := pick_of_get hget
  have hget' : (registry.validators ++ [snapshot])[call.idx]? = some v := by
    rw [List.getElem?_append_left hlt]
    exact hget
  set rows := (registry.validators ++ [snapshot]).modify call.idx rotated
  have haddress : pick activeAddress rows =
      registry.addressAt := by
    rw [pick_modify_same, pick_push_none]
    · rw [← hsnapshot, activeAddress, if_neg hheight]
    · intro u
      rw [← hrotated]
      rfl
  have hingress : pick (activeIngress prim) rows =
      update (registry.ingressAt prim) call.idx (some key) := by
    rw [pick_modify hget', pick_push_none]
    · rw [← hrotated, activeIngress, if_pos hactive, hkey]
      rfl
    · rw [← hsnapshot, activeIngress, if_neg hheight]
  have hplace : placeOf (pick pointer rows) =
      registry.place := by
    rw [pick_modify_same, pick_push, ← hsnapshot, pointer, placeOf_update]
    · refine update_eq_self_iff.mpr ?_
      simp [placeOf, pick]
    · intro u
      rw [← hrotated]
      rfl
  have hkeys : pick ValidatorRecord.key rows =
      update (update registry.keyAt registry.validators.length (some v.publicKey)) call.idx
        (some call.publicKey) := by
    rw [pick_modify hget', pick_push, ← hrotated, ← hsnapshot]
    rfl
  refine ⟨?_, fun i k hi => ?_⟩
  rotate_left
  · show ∃ j, pick _ _ j = some k
    rw [hkeys]
    by_cases hi' : i = call.idx
    · refine ⟨registry.validators.length, ?_⟩
      rw [update_of_ne hne.symm, update_self, ← hi, hi']
      exact hold.symm
    refine ⟨i, ?_⟩
    rw [update_of_ne hi', update_of_ne _, hi]
    rintro rfl
    rw [keyAt, pick_length] at hi
    cases hi
  constructor
  · show Placed registry.activeIndices (placeOf _)
    rw [hplace]
    exact h.places
  · show ∀ i, placeOf _ (i + 1) ≠ 0 ↔ (pick _ _ i).isSome = true
    rw [hplace, haddress]
    exact h.live
  · show Pointed (pick _ _) _
    rw [hkeys]
    -- the snapshot takes the old key, and the record in place the new one
    refine h.keys.handOver hold hne (fun heq => ?_) fun j => h.key_free hfree
    exact h.key_free hfree (heq ▸ hold)
  · show Pointed (pick _ _) registry.addressToIndex
    rw [haddress]
    exact h.addresses
  · show Reserved (pick _ _) ips
    rw [hingress]
    exact hips
  · intro i
    show (pick _ _ i).isSome = true → (pick _ _ i).isSome = true
    rw [haddress, hingress]
    by_cases hi : i = call.idx
    · simp [hi]
    · rw [update_of_ne hi]
      exact h.parses i

/-! ### New validators -/

theorem migrateRecord {v1Val : V1Validator} {skipped : Nat}
    (hcall : registry.migrateRecord prim env v1Val skipped = .ok next) : Advance prim registry next := by
  rw [ValidatorConfigV2.migrateRecord] at hcall
  split at hcall
  · cases hcall
    exact h.of_config
  split at hcall
  · cases hcall
    exact h.of_config
  split at hcall
  · cases hcall
    exact h.of_config
  next hkey =>
    obtain ⟨haddr, hcall⟩ := check_ok hcall
    obtain ⟨hash, hhash, hcall⟩ := map_ok hcall
    split at hcall
    · rw [← hcall]
      exact h.of_config
    next hfree =>
      have haddress : ∀ i, registry.addressAt i ≠ some v1Val.validatorAddress := fun i => h.address_free haddr
      cases hactive : v1Val.active with
      | true =>
        rw [hactive] at hcall hfree
        rw [← hcall]
        refine h.append (not_not.mp hkey) haddress ?_ ?_
        · rw [hhash]
          refine h.ingresses.reserve ?_ pick_length
          simpa using hfree
        · rw [hhash]
          exact fun _ => rfl
      | false =>
        rw [hactive] at hcall
        rw [← hcall]
        refine Tracked.append h (not_not.mp hkey) haddress ?_ ?_
        · have hsame : update (registry.ingressAt prim) registry.validators.length none =
              registry.ingressAt prim := update_eq_self_iff.mpr pick_length.symm
          rw [if_neg Bool.false_ne_true, if_neg hheight, hsame]
          exact h.ingresses
        · exact fun hzero => absurd hzero hheight
end

end

end Tracked

variable {taken : ValidatorConfigV2 × RegistryConfig}

theorem requireMigrationOwner_eq_ok (h : registry.requireMigrationOwner env sender = .ok taken) :
    registry.config.isInit = false ∧ registry.takeOver env = .ok taken := by
  obtain ⟨hinit, h⟩ := check_ok h
  obtain ⟨_, htaken, h⟩ := bind_ok h
  obtain ⟨_, _, rfl⟩ := map_ok h
  exact ⟨hinit, htaken⟩

theorem takeOver_eq_ok (h : registry.takeOver env = .ok taken) :
    taken.1 = { registry with config := taken.1.config } := by
  rw [takeOver] at h
  split at h
  · obtain ⟨_, _, rfl⟩ := map_ok h
    rfl
  · cases h
    rfl

namespace Tracked

theorem exec {tx : ValidatorTx} (h : Tracked prim registry) (hheight : tx.env.blockNumber ≠ 0)
    (hcall : registry.exec prim tx = .ok next) : Advance prim registry next := by
  obtain ⟨_, _, call⟩ := tx
  cases call with
  | migrateValidator =>
    obtain ⟨_, htaken, hcall⟩ := bind_ok hcall
    obtain ⟨_, hcall⟩ := rest_ok hcall
    obtain ⟨_, _, hcall⟩ := bind_ok hcall
    have hsame := takeOver_eq_ok (requireMigrationOwner_eq_ok htaken).2
    rw [hsame] at hcall
    have hadvance := h.of_config.tracked.migrateRecord hheight hcall
    exact ⟨hadvance.tracked, hadvance.keeps⟩
  | initializeIfMigrated =>
    obtain ⟨_, htaken, hcall⟩ := bind_ok hcall
    obtain ⟨_, _, rfl⟩ := map_ok hcall
    rw [takeOver_eq_ok (requireMigrationOwner_eq_ok htaken).2]
    exact h.of_config
  | addValidator =>
    obtain ⟨⟨_, _⟩, hadded, rfl⟩ := map_ok hcall
    exact h.addValidator hadded
  | deactivateValidator => exact h.deactivateValidator hheight hcall
  | rotateValidator => exact h.rotateValidator hheight hcall
  | setFeeRecipient => exact h.setFeeRecipient hcall
  | setIpAddresses => exact h.setIpAddresses hcall
  | transferValidatorOwnership => exact h.transferValidatorOwnership hcall
  | transferOwnership =>
    iterate 2 obtain ⟨_, hcall⟩ := rest_ok hcall
    obtain ⟨_, _, rfl⟩ := map_ok hcall
    exact h.of_config
  | setNetworkIdentityRotationEpoch =>
    obtain ⟨_, hcall⟩ := rest_ok hcall
    obtain ⟨_, _, rfl⟩ := map_ok hcall
    exact h.of_config

end Tracked

/-! ### The records and their indexes -/

def Active (registry : ValidatorConfigV2) (i : Nat) (v : ValidatorRecord) : Prop :=
  registry.validators[i]? = some v ∧ v.deactivatedAtHeight = 0

/-- The list of active records, the maps and the set of ingress endpoints say what the records say. -/
structure Consistent (prim : ValidatorPrimitives) (registry : ValidatorConfigV2) : Prop where
  listed : ∀ entry, entry ∈ registry.activeIndices ↔ ∃ i v, entry = i + 1 ∧ registry.Active i v
  once : registry.activeIndices.Nodup
  backPointer : ∀ p i v, registry.activeIndices[p]? = some (i + 1) → registry.validators[i]? = some v →
    v.activeIdx = p + 1
  distinct : ∀ i j v w, registry.Active i v → registry.Active j w →
    (v.validatorAddress = w.validatorAddress ∨ v.publicKey = w.publicKey ∨
      prim.ingressKey v.ingress = prim.ingressKey w.ingress) → i = j
  ingressParses : ∀ i v, registry.Active i v → ∃ key, prim.ingressKey v.ingress = .ok key
  ingressSet : ∀ key, registry.activeIngressIps key = true ↔
    ∃ i v, registry.Active i v ∧ prim.ingressKey v.ingress = .ok key
  keyMap : ∀ i v, registry.validators[i]? = some v → registry.pubkeyToIndex v.publicKey = i + 1
  addressMap : ∀ i v, registry.Active i v → registry.addressToIndex v.validatorAddress = i + 1

theorem addressAt_isSome : (registry.addressAt i).isSome = true ↔ ∃ v, registry.Active i v := by
  rw [Option.isSome_iff_exists]
  constructor
  · rintro ⟨_, haddr⟩
    obtain ⟨v, hget, hv⟩ := pick_eq_some.mp haddr
    rw [activeAddress] at hv
    split at hv
    · next hactive => exact ⟨v, hget, hactive⟩
    · cases hv
  · rintro ⟨v, hget, hactive⟩
    exact ⟨_, addressAt_of_active hget hactive⟩

theorem ingressAt_eq_some {key : Nat} :
    registry.ingressAt prim i = some key ↔ ∃ v, registry.Active i v ∧ prim.ingressKey v.ingress = .ok key := by
  constructor
  · intro h
    obtain ⟨v, hget, hv⟩ := pick_eq_some.mp h
    rw [activeIngress] at hv
    split at hv
    · next hactive =>
        refine ⟨v, ⟨hget, hactive⟩, ?_⟩
        cases hkey : prim.ingressKey v.ingress with
        | error e =>
          rw [hkey] at hv
          cases hv
        | ok =>
          rw [hkey] at hv
          cases hv
          rfl
    · cases hv
  · rintro ⟨v, ⟨hget, hactive⟩, hkey⟩
    exact ingressAt_of_active hget hactive hkey

theorem place_of_get (hget : registry.validators[i]? = some v) : registry.place (i + 1) = v.activeIdx := by
  simp [place, placeOf, pick_of_get hget, pointer]

namespace Tracked

theorem ingress_parses (h : Tracked prim registry) (hv : registry.Active i v) :
    ∃ key, prim.ingressKey v.ingress = .ok key := by
  obtain ⟨key, hkey⟩ := Option.isSome_iff_exists.mp (h.parses i (addressAt_isSome.mpr ⟨v, hv⟩))
  obtain ⟨w, hw, hkey⟩ := ingressAt_eq_some.mp hkey
  cases hv.1.symm.trans hw.1
  exact ⟨key, hkey⟩

theorem consistent (h : Tracked prim registry) : registry.Consistent prim where
  listed := by
    intro entry
    rw [h.places.mem_iff]
    cases entry with
    | zero => simp [place, placeOf]
    | succ i =>
      rw [h.live i, addressAt_isSome]
      constructor
      · rintro ⟨v, hv⟩
        exact ⟨i, v, rfl, hv⟩
      · rintro ⟨j, v, hj, hv⟩
        obtain rfl : i = j := by omega
        exact ⟨v, hv⟩
  once := h.places.nodup
  backPointer := by
    intro p i v hentry hget
    rw [← place_of_get hget]
    exact (h.places (i + 1) p).mp hentry
  distinct := by
    rintro i j v w hv hw (haddress | hkey | hingress)
    · refine h.addresses.unique (addressAt_of_active hv.1 hv.2) ?_
      rw [haddress]
      exact addressAt_of_active hw.1 hw.2
    · refine h.keys.unique (k := v.publicKey) (pick_of_get hv.1) ?_
      rw [hkey]
      exact pick_of_get hw.1
    · obtain ⟨key, hkey⟩ := h.ingress_parses hv
      exact h.ingresses.unique i j key (ingressAt_eq_some.mpr ⟨v, hv, hkey⟩)
        (ingressAt_eq_some.mpr ⟨w, hw, hingress ▸ hkey⟩)
  ingressParses := fun i v hv => h.ingress_parses hv
  ingressSet := by
    intro key
    rw [h.ingresses.taken_iff key]
    exact exists_congr fun i => ingressAt_eq_some
  keyMap := fun i v hget => h.keys i v.publicKey (pick_of_get hget)
  addressMap := fun i v hv => h.addresses i v.validatorAddress (addressAt_of_active hv.1 hv.2)

end Tracked
end ValidatorConfigV2
end LeafageEvm.Tempo
