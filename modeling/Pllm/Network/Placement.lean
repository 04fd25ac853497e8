import Pllm.Levels.Schedule

/-! Offline placement: roles with native demands, assigned to parties that offer capacity. A request
is checked against the requirements and put in one order before it is committed to. -/
namespace Pllm.Network
open Pllm.Lib

/-- A reported refusal, or an index into a map that lacks the key. -/
inductive Fault
  | refused (message : String)
  | panic
  deriving DecidableEq

/-- The entries of a `BTreeMap`. -/
abbrev Table := List (String × ℕ)

structure NetworkRoleAssignment where
  roleId : String
  partyId : String

structure NetworkRoleRequirement where
  roleId : String
  capability : String

structure NetworkPartyOffer where
  partyId : String
  operatorId : String
  instanceEpoch : String
  expiresAtMs : ℕ
  capabilities : List String
  maxMemoryBytes : ℕ
  maxWeightBytes : ℕ
  maxSessions : ℕ
  activeSessions : ℕ
  allowedModels : List String

structure NetworkPlacementRequest where
  schema : String
  snapshotDigest : String
  evaluatedAtMs : ℕ
  clientPartyId : String
  roles : List NetworkRoleAssignment
  parties : List NetworkPartyOffer
  requiredMemoryBytes : Table
  requiredWeightBytes : Table

structure NetworkPlacementRequirements where
  roles : List NetworkRoleRequirement
  separateOperators : List (String × String)
  minimumWeightBytes : Table
  minimumMemoryBytes : Table
  scheduleDigest : String
  modelPlanDigest : String
  compositionDigest : String

def placementSchema : String := "pllm.network_placement.v1"
def maxRoles : ℕ := 16
def maxParties : ℕ := 64
def networkCapabilities : List String :=
  ["trusted_client","masked_linear_provider","trusted_preparation","public_linear_provider"]

def nonzero (digest : String) : Bool := digest.toList.any fun c => c ≠ '0'

def index {α : Type} : Option α → Except Fault α
  | some a => .ok a
  | none => .error .panic

/-- Refuse when a condition holds. -/
def refuse (p : Prop) [Decidable p] (message : String) : Except Fault Unit :=
  if p then .error (.refused message) else .ok ()

/-- Two lists with the same members, as sets compare. -/
def SameMembers (xs ys : List String) : Prop := xs ⊆ ys ∧ ys ⊆ xs

instance (xs ys : List String) : Decidable (SameMembers xs ys) :=
  inferInstanceAs (Decidable (xs ⊆ ys ∧ ys ⊆ xs))

namespace NetworkPlacementRequest
variable (request : NetworkPlacementRequest)

/-- `roles[role]`. -/
def roleParty (role : String) : Option String :=
  (request.roles.find? fun a => a.roleId=role).map NetworkRoleAssignment.partyId

/-- `parties.get(id)`. -/
def findParty (id : String) : Option NetworkPartyOffer :=
  request.parties.find? fun p => p.partyId=id

end NetworkPlacementRequest

def checkHeader (request : NetworkPlacementRequest) : Except Fault Unit :=
  refuse (request.schema≠placementSchema ∨ Levels.validIdentity request.clientPartyId = false ∨
      nonzero request.snapshotDigest = false ∨ request.roles = [] ∨
      request.roles.length>maxRoles ∨ request.parties = [] ∨ request.parties.length>maxParties)
    "network placement schema, identity, or record count is invalid"

def checkNames (request : NetworkPlacementRequest) (requirements : NetworkPlacementRequirements) :
    Except Fault Unit :=
  let expected := requirements.roles.map NetworkRoleRequirement.roleId
  let assigned := request.roles.map NetworkRoleAssignment.roleId
  refuse (¬assigned.Nodup ∨ ¬SameMembers assigned expected ∨
      ¬SameMembers (request.requiredMemoryBytes.map Prod.fst) expected ∨
      ¬SameMembers (request.requiredWeightBytes.map Prod.fst) expected)
    "network assignments and resource maps must name every native role exactly once"

def checkClient (request : NetworkPlacementRequest) : Except Fault Unit := do
  let client ← index (request.roleParty "client")
  refuse (client≠request.clientPartyId)
    "network client must be assigned exactly to client_party_id"

/-- A config digest that is not all zeros, or the wildcard. -/
def allowedModel (model : String) : Bool :=
  model = "*" || (decide (model.utf8ByteSize=64)
    && (model.toList.all fun c => c.isDigit || (decide ('a' ≤ c) && decide (c ≤ 'f')))
    && !(model.toList.all fun c => c = '0'))

/-- One offer, after offers with the given party IDs. -/
def checkParty (request : NetworkPlacementRequest) (seen : List String)
    (party : NetworkPartyOffer) : Except Fault Unit := do
  refuse (Levels.validIdentity party.partyId = false ∨ Levels.validIdentity party.operatorId = false ∨
      nonzero party.instanceEpoch = false ∨ party.partyId∈seen)
    "network offers require distinct valid party IDs, operator IDs, and nonzero epochs"
  refuse (party.expiresAtMs ≤ request.evaluatedAtMs)
    ("network offer " ++ party.partyId ++ " is expired")
  refuse (party.activeSessions>party.maxSessions)
    ("network offer " ++ party.partyId ++ " has invalid session capacity")
  refuse (party.capabilities = [] ∨ ¬party.capabilities.Nodup ∨
      ∃ cap∈party.capabilities, cap ∉ networkCapabilities)
    ("network offer " ++ party.partyId ++ " has unknown or duplicate capabilities")
  refuse (party.allowedModels = [] ∨ ¬party.allowedModels.Nodup ∨
      ∃ model∈party.allowedModels, allowedModel model = false)
    ("network offer " ++ party.partyId ++
      " allowed_models requires nonzero config digests or '*'")

def checkParties (request : NetworkPlacementRequest) :
    List String → List NetworkPartyOffer → Except Fault Unit
  | _, [] => .ok ()
  | seen, party::parties => do
    checkParty request seen party
    checkParties request (party.partyId::seen) parties

structure Budget where
  memory : ℕ
  weight : ℕ
  sessions : ℕ

def checkFloor (role name : String) (required floor : ℕ) : Except Fault Unit :=
  refuse (required<floor) ("network role " ++ role ++ " " ++ name ++ " " ++ toString required ++
    " is below native minimum " ++ toString floor)

def checkedAdd (width a b : ℕ) (message : String) : Except Fault ℕ :=
  if a+b<2^width then .ok (a+b) else .error (.refused message)

/-- One role: its party must offer what it requires, and bear it beside the roles before it. -/
def placeRole (request : NetworkPlacementRequest) (requirements : NetworkPlacementRequirements)
    (modelIdentity : String) (budgets : String → Budget) (requirement : NetworkRoleRequirement) :
    Except Fault (String → Budget) := do
  let role := requirement.roleId
  let partyId ← index (request.roleParty role)
  match request.findParty partyId with
  | none => .error (.refused ("network role " ++ role ++ " names an unknown party"))
  | some party => do
    refuse (requirement.capability ∉ party.capabilities)
      ("network role " ++ role ++ " requires capability " ++ requirement.capability)
    refuse (¬∃ model∈party.allowedModels, model = "*" ∨ model=modelIdentity)
      ("network role " ++ role ++ " model config digest is not allowed")
    let memory ← index (request.requiredMemoryBytes.lookup role)
    let memoryFloor ← index (requirements.minimumMemoryBytes.lookup role)
    let weight ← index (request.requiredWeightBytes.lookup role)
    let weightFloor ← index (requirements.minimumWeightBytes.lookup role)
    checkFloor role "required_memory_bytes" memory memoryFloor
    checkFloor role "required_weight_bytes" weight weightFloor
    let budget := budgets party.partyId
    let memory ← checkedAdd 64 budget.memory memory "network memory resource budget overflow"
    let weight ← checkedAdd 64 budget.weight weight "network weight resource budget overflow"
    let sessions ← checkedAdd 32 budget.sessions 1 "network session resource budget overflow"
    refuse (memory>party.maxMemoryBytes ∨ weight>party.maxWeightBytes ∨
        sessions>party.maxSessions-party.activeSessions)
      ("network party " ++ party.partyId ++ " capacity exceeded")
    return Function.update budgets party.partyId ⟨memory,weight,sessions⟩

def operatorOf (request : NetworkPlacementRequest) (role : String) : Except Fault String := do
  let partyId ← index (request.roleParty role)
  let party ← index (request.findParty partyId)
  return party.operatorId

def checkSeparation (request : NetworkPlacementRequest) (pair : String × String) :
    Except Fault Unit := do
  let left ← operatorOf request pair.1
  let right ← operatorOf request pair.2
  refuse (left=right)
    ("network roles " ++ pair.1 ++ " and " ++ pair.2 ++ " require separate declared operators")

def validateRequest (request : NetworkPlacementRequest)
    (requirements : NetworkPlacementRequirements) (modelIdentity : String) :
    Except Fault Unit := do
  checkHeader request
  checkNames request requirements
  checkClient request
  checkParties request [] request.parties
  let _ ← requirements.roles.foldlM (placeRole request requirements modelIdentity) fun _ => ⟨0,0,0⟩
  requirements.separateOperators.forM (checkSeparation request)

def NetworkPartyOffer.canonical (party : NetworkPartyOffer) : NetworkPartyOffer :=
  {party with
    capabilities := party.capabilities.insertionSort (· ≤ ·)
    allowedModels := party.allowedModels.insertionSort (· ≤ ·)}

def NetworkPlacementRequest.canonical (request : NetworkPlacementRequest) :
    NetworkPlacementRequest :=
  {request with
    roles := request.roles.insertionSort fun left right => left.roleId ≤ right.roleId
    parties := (request.parties.insertionSort fun left right => left.partyId ≤ right.partyId).map
      NetworkPartyOffer.canonical}

structure Commitment where
  request : NetworkPlacementRequest
  scheduleDigest : String
  modelPlanDigest : String
  compositionDigest : String
  minimumWeightBytes : Table
  minimumMemoryBytes : Table

/-- What is left of a placement once its document is parsed: `digest` is the canonical digest of a
commitment and `canonicalBytes` encodes it with that digest. -/
def validateAdmittedPlacement {Bytes : Type} (digest : Commitment → String)
    (canonicalBytes : Commitment → String → Bytes) (request : NetworkPlacementRequest)
    (requirements : NetworkPlacementRequirements) (modelIdentity : String) :
    Except Fault Bytes := do
  validateRequest request requirements modelIdentity
  let commitment : Commitment := ⟨request.canonical,requirements.scheduleDigest,
    requirements.modelPlanDigest,requirements.compositionDigest,requirements.minimumWeightBytes,
    requirements.minimumMemoryBytes⟩
  return canonicalBytes commitment (digest commitment)

open List Function

variable {p q : NetworkPartyOffer} {message : String} {u : Unit} {budgets final : String → Budget}

@[simp] lemma refuse_eq_ok {p : Prop} [Decidable p] : refuse p message = .ok u ↔ ¬p := by
  unfold refuse
  split <;> simp_all

@[simp] lemma index_eq_ok {α : Type} {o : Option α} {a : α} : index o = .ok a ↔ o = some a := by
  cases o <;> simp [index]

@[simp] lemma checkedAdd_eq_ok {width a b c : ℕ} :
    checkedAdd width a b message = .ok c ↔ a+b<2^width ∧ a+b=c := by
  unfold checkedAdd
  split <;> simp_all

section
variable {α : Type} {key : α → String} {xs ys : List α}

lemma find?_key_eq_some (hnd : (xs.map key).Nodup) {k : String} {x : α} :
    xs.find? (fun y => key y = k) = some x ↔ x∈xs ∧ key x = k := by
  constructor
  · intro h
    exact ⟨mem_of_find?_eq_some h,by simpa using find?_some h⟩
  · rintro ⟨hx,rfl⟩
    induction xs with
    | nil => cases hx
    | cons y ys ih =>
      rw [map_cons,nodup_cons] at hnd
      rcases mem_cons.mp hx with rfl | hx
      · simp
      · have hne : key y ≠ key x := fun h => hnd.1 (h ▸ mem_map_of_mem hx)
        rw [find?_cons_of_neg (by simpa using hne)]
        exact ih hnd.2 hx

lemma find?_key_perm (hnd : (xs.map key).Nodup) (hperm : Perm xs ys) (k : String) :
    xs.find? (fun y => key y = k)=ys.find? fun y => key y = k := by
  have hnodup' : (ys.map key).Nodup := (hperm.map key).nodup_iff.mp hnd
  refine Option.ext fun x => ?_
  rw [find?_key_eq_some hnd,find?_key_eq_some hnodup',hperm.mem_iff]

lemma insertionSort_key_perm (hnd : (xs.map key).Nodup) (hperm : Perm xs ys) :
    xs.insertionSort (fun a b => key a ≤ key b)=ys.insertionSort fun a b => key a ≤ key b := by
  refine Perm.eq_of_pairwise (fun a b ha hb hab hba => ?_)
    (pairwise_insertionSort _ xs) (pairwise_insertionSort _ ys)
    ((perm_insertionSort _ xs).trans (hperm.trans (perm_insertionSort _ ys).symm))
  have ha' : a∈xs := (perm_insertionSort _ xs).mem_iff.mp ha
  have hb' : b∈xs := hperm.mem_iff.mpr ((perm_insertionSort _ ys).mem_iff.mp hb)
  exact inj_on_of_nodup_map hnd ha' hb' (le_antisymm hab hba)

lemma insertionSort_perm {xs ys : List String} (hperm : Perm xs ys) :
    xs.insertionSort (· ≤ ·) = ys.insertionSort (· ≤ ·) :=
  Perm.eq_of_pairwise (fun _ _ _ _ hab hba => le_antisymm hab hba)
    (pairwise_insertionSort _ xs) (pairwise_insertionSort _ ys)
    ((perm_insertionSort _ xs).trans (hperm.trans (perm_insertionSort _ ys).symm))

end

section
variable {request : NetworkPlacementRequest} {requirements : NetworkPlacementRequirements}
  {modelIdentity : String}

/-- An amount that a table names for a role, at or above the minimum. -/
def Demands (required minimum : Table) (role : String) (amount : ℕ) : Prop :=
  required.lookup role = some amount ∧ ∃ floor, minimum.lookup role = some floor ∧ floor≤amount

/-- A role on its party, with the demands that it makes. -/
structure Satisfied (request : NetworkPlacementRequest) (requirements : NetworkPlacementRequirements)
    (modelIdentity : String) (requirement : NetworkRoleRequirement) (partyId : String)
    (party : NetworkPartyOffer) (memory weight : ℕ) : Prop where
  hasRole : request.roleParty requirement.roleId = some partyId
  hasParty : request.findParty partyId = some party
  hasCapability : requirement.capability∈party.capabilities
  allowsModel : "*" ∈ party.allowedModels ∨ modelIdentity∈party.allowedModels
  hasMemory : Demands request.requiredMemoryBytes requirements.minimumMemoryBytes requirement.roleId memory
  hasWeight : Demands request.requiredWeightBytes requirements.minimumWeightBytes requirement.roleId weight

def Budget.add (budget : Budget) (memory weight : ℕ) : Budget :=
  ⟨budget.memory+memory,budget.weight+weight,budget.sessions+1⟩

def Budget.Fits (budget : Budget) (party : NetworkPartyOffer) : Prop :=
  budget.memory≤party.maxMemoryBytes ∧ budget.weight≤party.maxWeightBytes ∧
    budget.sessions ≤ party.maxSessions-party.activeSessions

lemma findParty_id {id : String} {party : NetworkPartyOffer}
    (h : request.findParty id = some party) : party.partyId=id := by
  simpa using find?_some h

lemma placeRole_eq_ok {requirement : NetworkRoleRequirement}
    (h : placeRole request requirements modelIdentity budgets requirement = .ok final) :
    ∃ partyId party memory weight, Satisfied request requirements modelIdentity requirement partyId
      party memory weight ∧ ((budgets partyId).add memory weight).Fits party ∧ final=update
      budgets partyId ((budgets partyId).add memory weight) := by
  obtain ⟨partyId,hrole,h⟩ := bind_eq_ok.mp h
  rw [index_eq_ok] at hrole
  cases hpty : request.findParty partyId with
  | none =>
    simp only [hpty] at h
    cases h
  | some party =>
    simp only [hpty,bind_eq_ok,refuse_eq_ok,checkedAdd_eq_ok,index_eq_ok,checkFloor,
      pure_eq_ok,ok_eq_ok,not_not,not_or,not_lt,gt_iff_lt] at h
    obtain ⟨_,hcap,_,hmod,memory,hmemo,memoryFloor,hmemoryFloor,weight,hwt,weightFloor,
      hwei,_,hmemoryLe,_,hweig,_,⟨-,rfl⟩,_,⟨-,rfl⟩,_,⟨-,rfl⟩,_,hfits,rfl⟩ := h
    have hid := findParty_id hpty
    rw [hid] at hfits ⊢
    refine ⟨partyId,party,memory,weight,⟨hrole,hpty,hcap,?_,
      ⟨hmemo,memoryFloor,hmemoryFloor,hmemoryLe⟩,⟨hwt,weightFloor,hwei,hweig⟩⟩,
      hfits,rfl⟩
    obtain ⟨model,hmem,rfl | rfl⟩ := hmod
    · exact .inl hmem
    · exact .inr hmem

/-- What the roles of a list that are placed on a party ask of it. -/
def placed (request : NetworkPlacementRequest) (roles : List String) (id : String) : List String :=
  roles.filter fun role => request.roleParty role = some id

def load (required : Table) (roles : List String) : ℕ :=
  (roles.map fun role => (required.lookup role).getD 0).sum

def Budget.after (budget : Budget) (request : NetworkPlacementRequest) (roles : List String) :
    Budget :=
  ⟨budget.memory+load request.requiredMemoryBytes roles,
    budget.weight+load request.requiredWeightBytes roles,budget.sessions+roles.length⟩

lemma foldlM_placeRole_eq_ok {rs : List NetworkRoleRequirement}
    (h : rs.foldlM (placeRole request requirements modelIdentity) budgets = .ok final)
    (hbud : ∀ id party, request.findParty id = some party → (budgets id).Fits party) :
    (∀ requirement∈rs, ∃ partyId party memory weight,
      Satisfied request requirements modelIdentity requirement partyId party memory weight) ∧
    ∀ id party, request.findParty id = some party →
      ((budgets id).after request (placed request (rs.map NetworkRoleRequirement.roleId) id)).Fits
        party := by
  induction rs generalizing budgets with
  | nil => exact ⟨nofun,fun id party hpty => hbud id party hpty⟩
  | cons requirement rs ih =>
    obtain ⟨next,hstep,h⟩ := bind_eq_ok.mp h
    obtain ⟨partyId,party,memory,weight,hsat,hfits,rfl⟩ := placeRole_eq_ok hstep
    have hnext : ∀ id q, request.findParty id=some q →
        (update budgets partyId ((budgets partyId).add memory weight) id).Fits q := by
      intro id q hq
      by_cases hid : id=partyId
      · subst hid
        rw [update_self]
        obtain rfl := some_inj (hsat.hasParty.symm.trans hq)
        exact hfits
      · rw [update_of_ne hid]
        exact hbud id q hq
    obtain ⟨hall,hfin⟩ := ih h hnext
    refine ⟨fun r hr => ?_,fun id q hq => ?_⟩
    · rcases mem_cons.mp hr with rfl | hr
      · exact ⟨partyId,party,memory,weight,hsat⟩
      · exact hall r hr
    · have hrest := hfin id q hq
      by_cases hid : id=partyId
      · subst hid
        rw [update_self] at hrest
        have hhere : placed request ((requirement::rs).map NetworkRoleRequirement.roleId) id =
            requirement.roleId :: placed request (rs.map NetworkRoleRequirement.roleId) id :=
          filter_cons_of_pos (by simpa using hsat.hasRole)
        rw [hhere]
        simp only [Budget.Fits,Budget.after,Budget.add,load,map_cons,sum_cons,
          hsat.hasMemory.1,hsat.hasWeight.1,Option.getD_some,length_cons] at hrest ⊢
        omega
      · rw [update_of_ne hid] at hrest
        have hoth : placed request ((requirement::rs).map NetworkRoleRequirement.roleId) id =
            placed request (rs.map NetworkRoleRequirement.roleId) id := by
          refine filter_cons_of_neg ?_
          rw [hsat.hasRole]
          simpa using Ne.symm hid
        rw [hoth]
        exact hrest

end

section
variable {request : NetworkPlacementRequest} {requirements : NetworkPlacementRequirements}
  {modelIdentity : String}

lemma checkParties_eq_ok {seen : List String} {parties : List NetworkPartyOffer} :
    checkParties request seen parties = .ok u ↔ (parties.map NetworkPartyOffer.partyId).Nodup ∧
      ∀ party∈parties, party.partyId ∉ seen ∧ checkParty request [] party = .ok () := by
  induction parties generalizing seen with
  | nil => simp [checkParties]
  | cons party parties ih =>
    have hpty : checkParty request seen party = .ok () ↔
        party.partyId ∉ seen ∧ checkParty request [] party = .ok () := by
      simp only [checkParty,bind_eq_ok,refuse_eq_ok,not_or,not_mem_nil]
      tauto
    simp only [checkParties,bind_eq_ok,ih,map_cons,nodup_cons,mem_cons,mem_map,not_or]
    constructor
    · rintro ⟨_,hhere,hnd,hrest⟩
      refine ⟨⟨fun ⟨p,hp,hid⟩ => (hrest p hp).1.1 hid,hnd⟩,fun p hp => ?_⟩
      rcases hp with rfl | hp
      · exact hpty.mp hhere
      · exact ⟨(hrest p hp).1.2,(hrest p hp).2⟩
    · rintro ⟨⟨hne,hnd⟩,hall⟩
      exact ⟨(),hpty.mpr (hall party (.inl rfl)),hnd,fun p hp =>
        ⟨⟨fun hid => hne ⟨p,hp,hid⟩,(hall p (.inr hp)).1⟩,(hall p (.inr hp)).2⟩⟩

/-- The roles that a request assigns to a party. -/
def NetworkPlacementRequest.rolesOn (request : NetworkPlacementRequest) (id : String) :
    List String :=
  (request.roles.filter fun a => a.partyId=id).map NetworkRoleAssignment.roleId

def Separated (request : NetworkPlacementRequest) (pair : String × String) : Prop :=
  ∃ left right, operatorOf request pair.1 = .ok left ∧ operatorOf request pair.2 = .ok right ∧
    left≠right

/-- What an accepted placement guarantees. -/
structure Accepted (request : NetworkPlacementRequest) (requirements : NetworkPlacementRequirements)
    (modelIdentity : String) : Prop where
  distinctRoles : (request.roles.map NetworkRoleAssignment.roleId).Nodup
  sameRoles : SameMembers (request.roles.map NetworkRoleAssignment.roleId)
    (requirements.roles.map NetworkRoleRequirement.roleId)
  distinctParties : (request.parties.map NetworkPartyOffer.partyId).Nodup
  satisfied : ∀ requirement∈requirements.roles, ∃ partyId party memory weight,
    Satisfied request requirements modelIdentity requirement partyId party memory weight
  fitsMemory : ∀ party∈request.parties,
    load request.requiredMemoryBytes (request.rolesOn party.partyId)≤party.maxMemoryBytes
  fitsWeight : ∀ party∈request.parties,
    load request.requiredWeightBytes (request.rolesOn party.partyId)≤party.maxWeightBytes
  fitsSessions : ∀ party∈request.parties,
    (request.rolesOn party.partyId).length+party.activeSessions ≤ party.maxSessions
  separated : ∀ pair∈requirements.separateOperators, Separated request pair

lemma load_le_of_subperm (required : Table) {xs ys : List String} (h : Subperm xs ys) :
    load required xs ≤ load required ys := by
  obtain ⟨zs,hperm,hsub⟩ := h
  rw [load,← (hperm.map _).sum_eq]
  exact (hsub.map _).sum_le_sum fun _ _ => zero_le

lemma rolesOn_subperm_placed (hnd : (request.roles.map NetworkRoleAssignment.roleId).Nodup)
    {names : List String} (hnam : request.roles.map NetworkRoleAssignment.roleId ⊆ names) (id :
    String) : Subperm (request.rolesOn id) (placed request names id) := by
  refine subperm_of_subset (hnd.sublist (filter_sublist.map _)) fun role hrole => ?_
  obtain ⟨a,ha,rfl⟩ := mem_map.mp hrole
  rw [mem_filter] at ha
  have hfind : request.roles.find? (fun b => b.roleId=a.roleId)=some a :=
    (find?_key_eq_some hnd).mpr ⟨ha.1,rfl⟩
  refine mem_filter.mpr ⟨hnam (mem_map_of_mem ha.1),?_⟩
  simpa [NetworkPlacementRequest.roleParty,hfind] using ha.2

lemma checkSeparation_eq_ok {pair : String × String} :
    checkSeparation request pair = .ok () ↔ Separated request pair := by
  simp [checkSeparation,Separated,bind_eq_ok]

lemma validateRequest_accepted (h : validateRequest request requirements modelIdentity = .ok ()) :
    Accepted request requirements modelIdentity := by
  simp only [validateRequest,bind_eq_ok,checkNames,refuse_eq_ok,not_or,not_not] at h
  obtain ⟨_,-,_,⟨hnd,hsame,-,-⟩,_,-,_,hptys,_,hloop,hsep⟩ := h
  obtain ⟨hdst,hoff⟩ := checkParties_eq_ok.mp hptys
  obtain ⟨hsat,hbud⟩ := foldlM_placeRole_eq_ok hloop fun _ _ _ => by simp [Budget.Fits]
  have hfits : ∀ party∈request.parties, (Budget.after ⟨0,0,0⟩ request
      (request.rolesOn party.partyId)).Fits party := by
    intro party hpty
    have hsub := rolesOn_subperm_placed hnd hsame.1 party.partyId
    have hfit := hbud party.partyId party ((find?_key_eq_some hdst).mpr ⟨hpty,rfl⟩)
    simp only [Budget.Fits,Budget.after] at hfit ⊢
    have hmemo := load_le_of_subperm request.requiredMemoryBytes hsub
    have hwt := load_le_of_subperm request.requiredWeightBytes hsub
    have hlen := hsub.length_le
    omega
  refine ⟨hnd,hsame,hdst,hsat,fun party hpty => ?_,fun party hpty => ?_,
    fun party hpty => ?_,fun pair hpair => ?_⟩
  · simpa [Budget.after] using (hfits party hpty).1
  · simpa [Budget.after] using (hfits party hpty).2.1
  · have hses := (hfits party hpty).2.2
    have hoffe := (hoff party hpty).2
    simp only [checkParty,bind_eq_ok,refuse_eq_ok,gt_iff_lt] at hoffe
    simp only [Budget.after] at hses
    omega
  · exact checkSeparation_eq_ok.mp (forM_eq_ok.mp hsep pair hpair)

end

/-- An offer with its capabilities and its models in another order. -/
structure NetworkPartyOffer.Reordered (p q : NetworkPartyOffer) : Prop where
  capabilities : List.Perm p.capabilities q.capabilities
  allowedModels : List.Perm p.allowedModels q.allowedModels
  rest : q = {p with capabilities := q.capabilities, allowedModels := q.allowedModels}

/-- A request with its roles, its parties and the lists of each party in another order. -/
structure NetworkPlacementRequest.Reordered (r s : NetworkPlacementRequest) : Prop where
  roles : List.Perm r.roles s.roles
  parties : ∃ parties, List.Forall₂ NetworkPartyOffer.Reordered r.parties parties ∧
    List.Perm parties s.parties
  rest : s = {r with roles := s.roles, parties := s.parties}

lemma NetworkPartyOffer.Reordered.canonical_eq (h : p.Reordered q) : p.canonical=q.canonical := by
  rw [h.rest]
  simp only [NetworkPartyOffer.canonical,insertionSort_perm h.capabilities,
    insertionSort_perm h.allowedModels]

section
variable {r s : NetworkPlacementRequest} {requirements : NetworkPlacementRequirements}
  {modelIdentity : String}

lemma NetworkPlacementRequest.Reordered.parties_perm (h : r.Reordered s) : Perm
    (r.parties.map NetworkPartyOffer.canonical) (s.parties.map NetworkPartyOffer.canonical) := by
  obtain ⟨parties,hall,hperm⟩ := h.parties
  have heq : r.parties.map NetworkPartyOffer.canonical =
      parties.map NetworkPartyOffer.canonical := by
    refine forall₂_eq_eq_eq ▸ ?_
    rw [forall₂_map_left_iff,forall₂_map_right_iff]
    exact hall.imp fun _ _ => NetworkPartyOffer.Reordered.canonical_eq
  rw [heq]
  exact hperm.map _

lemma checkParty_canonical (request : NetworkPlacementRequest) (seen : List String)
    (p : NetworkPartyOffer) : checkParty request seen p.canonical = checkParty request seen p := by
  have hcap : (p.capabilities.insertionSort (· ≤ ·)=[]) ↔ p.capabilities=[] := by
    rw [← length_eq_zero_iff,length_insertionSort,length_eq_zero_iff]
  have hmod : (p.allowedModels.insertionSort (· ≤ ·)=[]) ↔ p.allowedModels=[] := by
    rw [← length_eq_zero_iff,length_insertionSort,length_eq_zero_iff]
  simp only [checkParty,NetworkPartyOffer.canonical,hcap,hmod,mem_insertionSort,
    (perm_insertionSort _ p.capabilities).nodup_iff,
    (perm_insertionSort _ p.allowedModels).nodup_iff]
  congr!

/-- Two offers with one canonical form. -/
structure NetworkPartyOffer.Agree (p q : NetworkPartyOffer) : Prop where
  partyId : p.partyId=q.partyId
  operatorId : p.operatorId=q.operatorId
  maxMemoryBytes : p.maxMemoryBytes=q.maxMemoryBytes
  maxWeightBytes : p.maxWeightBytes=q.maxWeightBytes
  maxSessions : p.maxSessions=q.maxSessions
  activeSessions : p.activeSessions=q.activeSessions
  capabilities : ∀ cap, cap∈p.capabilities ↔ cap∈q.capabilities
  allowedModels : ∀ model, model∈p.allowedModels ↔ model∈q.allowedModels

lemma agree_of_canonical_eq (h : p.canonical=q.canonical) : p.Agree q := by
  have hfie : ∀ {β : Type} (field : NetworkPartyOffer → β),
      (∀ x, field x.canonical = field x) → field p = field q := by
    intro β field hcan
    rw [← hcan p,h,hcan q]
  refine ⟨hfie _ fun _ => rfl,hfie _ fun _ => rfl,hfie _ fun _ => rfl,hfie _ fun _ => rfl,
    hfie _ fun _ => rfl,hfie _ fun _ => rfl,fun cap => ?_,fun model => ?_⟩
  · exact iff_of_eq (hfie (cap ∈ ·.capabilities) fun _ => propext (mem_insertionSort _))
  · exact iff_of_eq (hfie (model ∈ ·.allowedModels) fun _ => propext (mem_insertionSort _))

lemma findParty_canonical (request : NetworkPlacementRequest) (id : String) :
    (request.findParty id).map NetworkPartyOffer.canonical =
      (request.parties.map NetworkPartyOffer.canonical).find? fun p => p.partyId=id := by
  rw [find?_map]
  rfl

section
variable (h : r.Reordered s) (hrol : (r.roles.map NetworkRoleAssignment.roleId).Nodup)
  (hptys : (r.parties.map NetworkPartyOffer.partyId).Nodup)
include h

include hrol in
lemma Reordered.roleParty_eq (role : String) : s.roleParty role = r.roleParty role := by
  rw [NetworkPlacementRequest.roleParty,NetworkPlacementRequest.roleParty,
    find?_key_perm hrol h.roles]

include hptys in
lemma Reordered.findParty_eq (id : String) : (s.findParty id).map NetworkPartyOffer.canonical =
      (r.findParty id).map NetworkPartyOffer.canonical := by
  rw [findParty_canonical,findParty_canonical]
  refine (find?_key_perm ?_ h.parties_perm id).symm
  rwa [map_map]

include hptys in
lemma Reordered.findParty_cases (id : String) : (r.findParty id = none ∧ s.findParty id = none) ∨
    ∃ p q, r.findParty id = some p ∧ s.findParty id = some q ∧ q.Agree p := by
  have heq := Reordered.findParty_eq h hptys id
  cases hp : r.findParty id <;> cases hq : s.findParty id
  · exact .inl ⟨rfl,rfl⟩
  · simp [hp,hq] at heq
  · simp [hp,hq] at heq
  · rw [hp,hq,Option.map_some,Option.map_some,Option.some.injEq] at heq
    exact .inr ⟨_,_,rfl,rfl,agree_of_canonical_eq heq⟩

include hrol hptys in
lemma Reordered.operatorOf_eq (role : String) : operatorOf s role = operatorOf r role := by
  simp only [operatorOf,Reordered.roleParty_eq h hrol]
  cases r.roleParty role with
  | none => rfl
  | some id =>
    obtain ⟨hp,hq⟩ | ⟨p,q,hp,hq,hagr⟩ := Reordered.findParty_cases h hptys id
    · simp only [index,bind,Except.bind,hp,hq]
    · simp only [index,bind,Except.bind,hp,hq,hagr.operatorId]

include hrol hptys in
lemma Reordered.placeRole_eq (budgets : String → Budget) (requirement : NetworkRoleRequirement) :
    placeRole s requirements modelIdentity budgets requirement =
      placeRole r requirements modelIdentity budgets requirement := by
  have hmemo : s.requiredMemoryBytes=r.requiredMemoryBytes := by rw [h.rest]
  have hwt : s.requiredWeightBytes=r.requiredWeightBytes := by rw [h.rest]
  simp only [placeRole,Reordered.roleParty_eq h hrol,hmemo,hwt]
  cases r.roleParty requirement.roleId with
  | none => rfl
  | some id =>
    obtain ⟨hp,hq⟩ | ⟨p,q,hp,hq,hagr⟩ := Reordered.findParty_cases h hptys id
    · simp only [index,bind,Except.bind,hp,hq]
    · simp only [index,bind,Except.bind,hp,hq,hagr.partyId,hagr.maxMemoryBytes,
        hagr.maxWeightBytes,hagr.maxSessions,hagr.activeSessions,hagr.capabilities,
        hagr.allowedModels]

include h in
lemma Reordered.checkParties_ok (hok : checkParties r [] r.parties = .ok ()) :
    checkParties s [] s.parties = .ok () := by
  obtain ⟨hnd,hall⟩ := checkParties_eq_ok.mp hok
  have hperm := h.parties_perm
  refine checkParties_eq_ok.mpr ⟨?_,fun q hq => ⟨not_mem_nil,?_⟩⟩
  · have hids := hperm.map NetworkPartyOffer.partyId
    rw [map_map,map_map] at hids
    exact hids.nodup_iff.mp hnd
  · obtain ⟨p,hp,heq⟩ := mem_map.mp (hperm.mem_iff.mpr (mem_map_of_mem hq))
    have heva : s.evaluatedAtMs=r.evaluatedAtMs := by rw [h.rest]
    have hsame : ∀ x, checkParty s [] x=checkParty r [] x := by
      intro x
      simp only [checkParty,heva]
    rw [← checkParty_canonical,← heq,checkParty_canonical,hsame]
    exact (hall p hp).2

lemma Reordered.canonical_eq (hrol : (r.roles.map NetworkRoleAssignment.roleId).Nodup) (hptys
    : (r.parties.map NetworkPartyOffer.partyId).Nodup) : r.canonical=s.canonical := by
  have hsrt : ∀ ps : List NetworkPartyOffer,
      (ps.insertionSort fun left right => left.partyId ≤ right.partyId).map
          NetworkPartyOffer.canonical =
        (ps.map NetworkPartyOffer.canonical).insertionSort
          fun left right => left.partyId ≤ right.partyId :=
    fun ps => map_insertionSort _ _ _ ps fun _ _ _ _ => Iff.rfl
  have hrol' := insertionSort_key_perm hrol h.roles
  have hparties' : ((r.parties.map NetworkPartyOffer.canonical).map
      NetworkPartyOffer.partyId).Nodup := by rwa [map_map]
  simp only [NetworkPlacementRequest.canonical,hsrt,hrol',
    insertionSort_key_perm hparties' h.parties_perm]
  rw [h.rest]

include h in
lemma Reordered.checkHeader_eq : checkHeader s = checkHeader r := by
  have hsch : s.schema=r.schema := by rw [h.rest]
  have hcli : s.clientPartyId=r.clientPartyId := by rw [h.rest]
  have hdig : s.snapshotDigest=r.snapshotDigest := by rw [h.rest]
  have hptys := h.parties_perm.length_eq
  rw [length_map,length_map] at hptys
  simp only [checkHeader,hsch,hcli,hdig,← length_eq_zero_iff,h.roles.length_eq,hptys]

include h in
lemma Reordered.checkNames_eq : checkNames s requirements = checkNames r requirements := by
  have hmemo : s.requiredMemoryBytes=r.requiredMemoryBytes := by rw [h.rest]
  have hwt : s.requiredWeightBytes=r.requiredWeightBytes := by rw [h.rest]
  have hperm := h.roles.map NetworkRoleAssignment.roleId
  have hmem : ∀ role, role ∈ s.roles.map NetworkRoleAssignment.roleId ↔
      role ∈ r.roles.map NetworkRoleAssignment.roleId := fun role => hperm.mem_iff.symm
  simp only [checkNames,SameMembers,hmemo,hwt,subset_def,hmem,hperm.nodup_iff]

lemma Reordered.validateRequest_ok (hok : validateRequest r requirements modelIdentity = .ok ()) :
    validateRequest s requirements modelIdentity = .ok () := by
  obtain ⟨_,hhdr,_,hnam,_,hcli,_,hche,hok⟩ := bind₄_eq_ok.mp hok
  obtain ⟨final,hloop,hsep⟩ := bind_eq_ok.mp hok
  have hrol := (not_or.mp (refuse_eq_ok.mp hnam)).1
  rw [not_not] at hrol
  have hptys := (checkParties_eq_ok.mp hche).1
  have hclie : s.clientPartyId=r.clientPartyId := by rw [h.rest]
  have hcli' : checkClient s=checkClient r := by
    simp only [checkClient,Reordered.roleParty_eq h hrol,hclie]
  have hpla : placeRole s requirements modelIdentity=placeRole r requirements modelIdentity :=
    funext fun budgets => funext fun requirement =>
      Reordered.placeRole_eq h hrol hptys budgets requirement
  have hsepa : checkSeparation s=checkSeparation r := by
    funext pair
    simp only [checkSeparation,Reordered.operatorOf_eq h hrol hptys]
  rw [validateRequest,Reordered.checkHeader_eq h,Reordered.checkNames_eq h,hcli',hpla, hsepa]
  simp only [bind_eq_ok]
  exact ⟨_,hhdr,_,hnam,_,hcli,_,Reordered.checkParties_ok h hche,_,hloop,hsep⟩

end

end

/-- An accepted request fits every offer and meets every requirement, and what is committed to does
not depend on the order of its lists. -/
theorem placement_sound_and_canonical {Bytes : Type} (digest : Commitment → String) (canonicalBytes
    : Commitment → String → Bytes) (requirements : NetworkPlacementRequirements) (modelIdentity :
    String) (request : NetworkPlacementRequest) (h : validateRequest request requirements
    modelIdentity = .ok ()) : Accepted request requirements modelIdentity ∧
    ∀ other, request.Reordered other →
      validateAdmittedPlacement digest canonicalBytes other requirements modelIdentity =
        validateAdmittedPlacement digest canonicalBytes request requirements modelIdentity := by
  have hacc := validateRequest_accepted h
  refine ⟨hacc,fun other hoth => ?_⟩
  simp only [validateAdmittedPlacement,h,Reordered.validateRequest_ok hoth h,
    Reordered.canonical_eq hoth hacc.distinctRoles hacc.distinctParties]

def placementExample (reversed : Bool) : NetworkPlacementRequest where
  schema := placementSchema
  snapshotDigest := "1"
  evaluatedAtMs := 5
  clientPartyId := "a"
  roles := if reversed then [⟨"model","b"⟩,⟨"client","a"⟩,⟨"head","b"⟩] else
    [⟨"client","a"⟩,⟨"model","b"⟩,⟨"head","b"⟩]
  parties :=
    let client : NetworkPartyOffer := ⟨"a","x","1",9,["trusted_client"],8,8,2,1,["*"]⟩
    let model : NetworkPartyOffer := ⟨"b","y","1",9,if reversed then
      ["public_linear_provider","trusted_preparation"] else
      ["trusted_preparation","public_linear_provider"],8,8,3,1,["*"]⟩
    if reversed then [model,client] else [client,model]
  requiredMemoryBytes := [("client",4),("model",5),("head",3)]
  requiredWeightBytes := [("client",0),("model",6),("head",2)]

def requirementsExample : NetworkPlacementRequirements where
  roles := [⟨"client","trusted_client"⟩,⟨"model","public_linear_provider"⟩,
    ⟨"head","trusted_preparation"⟩]
  separateOperators := [("client","model"),("client","head")]
  minimumWeightBytes := [("client",0),("model",6),("head",2)]
  minimumMemoryBytes := [("client",4),("model",4),("head",3)]
  scheduleDigest := "2"
  modelPlanDigest := "3"
  compositionDigest := "4"

/-- Two roles share the second party, whose offer their sums use up. -/
theorem placement_example : Accepted (placementExample false) requirementsExample "5" ∧
    validateAdmittedPlacement (fun _ => "6") Prod.mk (placementExample true) requirementsExample
        "5" =
      validateAdmittedPlacement (fun _ => "6") Prod.mk (placementExample false)
        requirementsExample "5" := by
  have h := placement_sound_and_canonical (fun _ => "6") Prod.mk requirementsExample "5"
    (placementExample false) (by decide +kernel)
  refine ⟨h.1,h.2 (placementExample true) ⟨Perm.swap _ _ _,?_,rfl⟩⟩
  exact ⟨(placementExample true).parties.reverse,
    .cons ⟨.refl _,.refl _,rfl⟩ (.cons ⟨.swap _ _ _,.refl _,rfl⟩ .nil),reverse_perm _⟩

end Pllm.Network
