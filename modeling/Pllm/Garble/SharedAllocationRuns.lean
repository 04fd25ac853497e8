import Pllm.Garble.SharedAllocation

/-! The account over whole runs. -/
namespace Pllm.Garble.SharedAllocation
open Prod Event Multiset Pending Option
open State (new)
open Pending (held)
variable {z : Sizes} {s s' : State}

lemma fetchSub_eq {used bytes : ℕ} (hle : bytes ≤ used) (hused : used<2^64) :
    fetchSub used bytes = used-bytes := by
  unfold fetchSub
  omega

lemma fetchSub_zero {used : ℕ} (hused : used<2^64) : fetchSub used 0 = used := by
  rw [fetchSub_eq zero_le hused,tsub_zero]

/-- What holds between any two atomic operations. -/
structure Inv (z : Sizes) (s : State) : Prop where
  balance : s.used = s.fixed+bytesOf z (s.guards z)+s.inFlight
  bound : s.used ≤ s.limit
  limit : s.limit ≤ maxAllocationBytes
  formed : AllFormed z (s.guards z)
  started : ∀ p∈s.pending, p.call.start z = .reserving p.bytes

lemma Inv.used_lt (h : Inv z s) : s.used<2^64 := by
  have hbd := h.bound
  have hlim := h.limit
  simp only [maxAllocationBytes] at hlim
  omega

variable {gs : Multiset Guard} {limit : ℕ}

section
variable {p : Pending} {rest : Multiset Pending}

lemma guards_of_live (hle : gs ≤ s.live) : s.guards z = gs+(s.live-gs+s.pending.bind (held z)) := by
  rw [State.guards,← add_assoc,add_tsub_cancel_of_le hle]

lemma guards_of_pending (h : s.pending=p ::ₘ rest) :
    s.guards z = p.held z+(s.live+rest.bind (held z)) := by
  rw [State.guards,h,cons_bind,add_left_comm]

lemma inFlight_of_pending (h : s.pending=p ::ₘ rest) :
    s.inFlight = p.inFlight+(rest.map inFlight).sum := by
  rw [State.inFlight,h,map_cons,sum_cons]

lemma Inv.started_rest (h : Inv z s) (hp : s.pending=p ::ₘ rest) :
    ∀ q∈rest, q.call.start z = .reserving q.bytes :=
  fun q hq => h.started q (by simp [hp,hq])

lemma Inv.started_at (h : Inv z s) (hp : s.pending=p ::ₘ rest) :
    p.call.start z = .reserving p.bytes :=
  h.started p (by simp [hp])

end

/-- Guards exchanged for others of the same bytes less what is subtracted from the counter. -/
lemma Inv.exchange (h : Inv z s) (s' : State) {gs gs' rest : Multiset Guard} {bytes : ℕ} (hgua :
    s.guards z = gs+rest) (hbyt : bytesOf z gs'+bytes = bytesOf z gs) (hfmd : AllFormed z gs')
    (hlim : s'.limit=s.limit) (hfix : s'.fixed=s.fixed) (hused : s'.used = fetchSub s.used bytes)
    (hguards' : s'.guards z = gs'+rest) (hfli : s'.inFlight=s.inFlight) (hsta : ∀ p∈s'.pending,
    p.call.start z = .reserving p.bytes) : bytes ≤ s.used ∧ s'.used+bytes=s.used ∧ Inv z s' := by
  have hbala := h.balance
  rw [hgua,bytesOf_add] at hbala
  have hle : bytes ≤ s.used := by omega
  rw [fetchSub_eq hle h.used_lt] at hused
  refine ⟨hle,by omega,?_,?_,?_,?_,hsta⟩
  · rw [hguards',hfli,bytesOf_add]
    omega
  · have hbd := h.bound
    omega
  · rw [hlim]
    exact h.limit
  · rw [hguards']
    exact hfmd.add (h.formed.mono (hgua ▸ Multiset.le_add_left ..))

lemma AllFormed.held {call : Call} (h : AllFormed z (s.guards z)) (hle : call.held ≤ s.live) :
    AllFormed z call.held :=
  h.mono (hle.trans (Multiset.le_add_right ..))

/-- What one step may do: the subtraction it makes is covered, a split leaves the counter alone, and
so does every step of a call up to its successful exchange; only such a call fails, and its guard is
back as it was. -/
structure Keeps (z : Sizes) (s : State) (e : Event) (s' : State) (o : Outcome) : Prop where
  limit : s'.limit=s.limit
  fixed : s'.fixed=s.fixed
  covered : ∀ bytes, e.released z = some bytes → bytes ≤ s.used ∧ s'.used+bytes=s.used
  split : ∀ call, e = .invoke call → call.isSplit → s'.used=s.used
  failed : o = .failed → s'.used=s.used ∧ s'.guards z = s.guards z ∧
    match e with
    | .invoke _ => s'=s
    | .resume p _ => (∃ previous, p.pc = .seen previous) ∧ s'.live=p.call.held+s.live
  before : ∀ p weak, e = .resume p weak → (p.pc = .entered ∨ ∃ previous, p.pc = .seen previous) →
    s'.used=s.used ∨ ∃ previous, { p with pc := .reserved previous } ∈ s'.pending

section
variable {call : Call} {o : Outcome} {p : Pending} {rest : Multiset Pending} {used peak : ℕ}

lemma isSplit_start (h : call.isSplit) :
    call.start z = .failed ∨ ∃ guards, call.start z = .done guards := by
  have hcar : ∀ self payload metadata child, Call.carve z self payload metadata child = .failed ∨
      ∃ guards, Call.carve z self payload metadata child = .done guards := by
    intro self payload metadata child
    unfold Call.carve
    cases checkedAdd payload metadata with
    | none => exact .inl rfl
    | some bytes =>
      dsimp only
      split
      · exact .inr ⟨_,rfl⟩
      · exact .inl rfl
  cases call with
  | split self bytes =>
    simp only [Call.start]
    split
    · exact .inr ⟨_,rfl⟩
    · exact .inl rfl
  | splitPayload self own bytes =>
    simp only [Call.start]
    split
    · exact .inl rfl
    · split
      · exact .inr ⟨_,rfl⟩
      · exact .inl rfl
  | splitNative self own bytes =>
    simp only [Call.start]
    split
    · exact .inl rfl
    · exact .inr ⟨_,rfl⟩
  | splitOwned self payload => exact hcar ..
  | splitExternal self payload => exact hcar ..
  | _ => cases h

lemma Inv.invoke (h : Inv z s) (hstep : s.invoke z call = some (s',o)) :
    Inv z s' ∧ Keeps z s (.invoke call) s' o := by
  unfold State.invoke at hstep
  split at hstep
  · cases hstep
  next hle =>
    have hle : call.held ≤ s.live := not_not.mp hle
    have hgua := guards_of_live (z := z) hle
    have hbal := start_balanced call (h.formed.held hle)
    cases hst : call.start z with
    | failed =>
      simp only [hst] at hstep
      obtain ⟨rfl,rfl⟩ := hstep
      refine ⟨h,rfl,rfl,?_,fun _ _ _ => rfl,fun _ => ⟨rfl,rfl,rfl⟩,nofun⟩
      simp [released,hst]
    | done guards =>
      rw [hst] at hbal
      simp only [hst] at hstep
      obtain ⟨rfl,rfl⟩ := hstep
      have hused : s.used=fetchSub s.used 0 := (fetchSub_zero h.used_lt).symm
      obtain ⟨-,-,hinv⟩ := h.exchange { s with live := guards+(s.live-call.held) } hgua
        (by rw [hbal.1,add_zero]) hbal.2 rfl rfl hused (add_assoc ..) rfl h.started
      refine ⟨hinv,rfl,rfl,?_,fun _ _ _ => rfl,nofun,nofun⟩
      simp [released,hst]
    | reserving bytes =>
      simp only [hst] at hstep
      obtain ⟨rfl,rfl⟩ := hstep
      have hused : s.used=fetchSub s.used 0 := (fetchSub_zero h.used_lt).symm
      obtain ⟨-,-,hinv⟩ := h.exchange
        { s with live := s.live-call.held, pending := ⟨call,bytes,.entered⟩ ::ₘ s.pending }
        hgua (add_zero _) (h.formed.held hle) rfl rfl hused
        (by simp [State.guards,Pending.held,add_left_comm]) (by simp [State.inFlight,inFlight])
        (by
          intro p hp
          rcases mem_cons.mp hp with rfl | hp
          · exact hst
          · exact h.started p hp)
      refine ⟨hinv,rfl,rfl,?_,fun _ _ _ => rfl,nofun,nofun⟩
      simp [released,hst]
    | releasing bytes guards =>
      rw [hst] at hbal
      simp only [hst] at hstep
      generalize hn : fetchSub s.used bytes=n at hstep
      obtain ⟨rfl,rfl⟩ := hstep
      obtain ⟨hle',hsum,hinv⟩ := h.exchange { s with used := n, live := guards+(s.live-call.held) }
        hgua hbal.1 hbal.2 rfl rfl hn.symm (add_assoc ..) (by simp only [State.inFlight])
        h.started
      refine ⟨hinv,rfl,rfl,?_,?_,nofun,nofun⟩
      · intro b hb
        simp only [released,hst,Option.some.injEq] at hb
        subst hb
        exact ⟨hle',hsum⟩
      · rintro c hc hspl
        obtain rfl : call=c := by simpa using hc
        rcases isSplit_start (z := z) hspl with hs | ⟨_,hs⟩ <;> rw [hs] at hst <;> cases hst

section
variable (h : Inv z s) (hp : s.pending=p ::ₘ rest)
include h hp

lemma Inv.pending_formed : AllFormed z (p.held z) := by
  refine h.formed.mono ?_
  rw [guards_of_pending hp]
  exact Multiset.le_add_right ..

/-- A record that moves on with the guard it has in hand, and bytes in flight as the counter says. -/
lemma Inv.move {q : Pending} (hcall : q.call=p.call)
    (hbyt : q.bytes=p.bytes) (hfmd : AllFormed z (q.held z)) (hbd : used ≤ s.limit)
    (hsum : used+p.inFlight+bytesOf z (p.held z) = s.used+q.inFlight+bytesOf z (q.held z)) :
    Inv z { s with used := used, peak := peak, pending := q ::ₘ rest } := by
  have hbala := h.balance
  rw [guards_of_pending hp,bytesOf_add,inFlight_of_pending hp] at hbala
  have hgua : ({ s with used := used, peak := peak, pending := q ::ₘ rest } : State).guards z =
      q.held z+(s.live+rest.bind (held z)) := guards_of_pending rfl
  refine ⟨?_,hbd,h.limit,?_,?_⟩
  · rw [hgua,bytesOf_add,inFlight_of_pending rfl]
    dsimp only
    omega
  · rw [hgua]
    refine hfmd.add (h.formed.mono ?_)
    rw [guards_of_pending hp]
    exact Multiset.le_add_left ..
  · intro r hr
    rcases mem_cons.mp hr with rfl | hr
    · rw [hcall,hbyt]
      exact h.started_at hp
    · exact h.started_rest hp r hr

lemma Inv.finish (hused :
    used=s.used) (hfmd : AllFormed z gs) (hsum : bytesOf z gs = p.inFlight+bytesOf z (p.held z))
    : Inv z { s with used := used, peak := peak, live := gs+s.live, pending := rest } := by
  have hbala := h.balance
  rw [guards_of_pending hp,bytesOf_add,inFlight_of_pending hp] at hbala
  have hgua : ({ s with used := used, peak := peak, live := gs+s.live, pending := rest } :
      State).guards z = gs+(s.live+rest.bind (held z)) := add_assoc ..
  refine ⟨?_,hused.trans_le h.bound,h.limit,?_,h.started_rest hp⟩
  · rw [hgua,bytesOf_add]
    simp only [State.inFlight]
    omega
  · rw [hgua]
    refine hfmd.add (h.formed.mono ?_)
    rw [guards_of_pending hp]
    exact Multiset.le_add_left ..

lemma Inv.adopts (hfmd : AllFormed z p.call.held) : (p.call.adopted z).bytes z =
    bytesOf z p.call.held+p.bytes ∧ (p.call.adopted z).WellFormed z := by
  have hbal := start_balanced p.call hfmd
  rw [h.started_at hp] at hbal
  exact hbal

end

lemma Inv.resume {weak : Bool} (h : Inv z s) (hstep : s.resume z p weak = some (s',o)) :
    Inv z s' ∧ Keeps z s (.resume p weak) s' o := by
  unfold State.resume at hstep
  split at hstep
  · cases hstep
  next hmem =>
    obtain ⟨rest,hp⟩ : ∃ rest, s.pending=p ::ₘ rest :=
      exists_cons_of_mem (not_not.mp hmem)
    obtain ⟨call,bytes,pc⟩ := p
    rw [hp,erase_cons_head] at hstep
    have hfmd := h.pending_formed hp
    cases pc with
    | entered =>
      obtain ⟨rfl,rfl⟩ := hstep
      refine ⟨h.move (q := ⟨call,bytes,.seen s.used⟩) hp rfl rfl hfmd h.bound rfl,rfl,rfl,?_,nofun,
        nofun,fun _ _ _ _ => .inl rfl⟩
      simp [released]
    | seen previous =>
      dsimp only at hstep
      split at hstep
      next hfits =>
        split at hstep
        next hexc =>
          obtain ⟨rfl,rfl⟩ := hstep
          refine ⟨h.move (q := ⟨call,bytes,.reserved previous⟩) hp rfl rfl hfmd hfits.2 ?_,rfl,rfl,?_,
            nofun,nofun,?_⟩
          · simp only [inFlight,Pending.held]
            omega
          · simp [released]
          · rintro q w hq -
            obtain ⟨rfl,-⟩ : _=q ∧ weak=w := by simpa using hq
            exact .inr ⟨previous,by simp⟩
        next =>
          obtain ⟨rfl,rfl⟩ := hstep
          refine ⟨h.move (q := ⟨call,bytes,.seen s.used⟩) hp rfl rfl hfmd h.bound rfl,rfl,rfl,?_,
            nofun,nofun,fun _ _ _ _ => .inl rfl⟩
          simp [released]
      next =>
        obtain ⟨rfl,rfl⟩ := hstep
        refine ⟨h.finish hp rfl hfmd (by simp [inFlight,Pending.held]),rfl,rfl,?_,nofun,
          ?_,fun _ _ _ _ => .inl rfl⟩
        · simp [released]
        · intro _
          refine ⟨rfl,?_,⟨previous,rfl⟩,rfl⟩
          rw [guards_of_pending hp]
          exact add_assoc ..
    | reserved previous =>
      obtain ⟨hbyt,hado⟩ := h.adopts hp hfmd
      have hgoes : ∀ peak, Inv z
          { s with peak := peak, live := call.adopted z ::ₘ s.live, pending := rest } := by
        intro peak
        refine h.finish hp rfl (allFormed_singleton.mpr hado) ?_
        rw [bytesOf_singleton,hbyt]
        exact add_comm ..
      have hclo : ∀ peak, Inv z
          { s with peak := peak, pending := ⟨call,bytes,.closing⟩ ::ₘ rest } := by
        intro peak
        refine h.move hp rfl rfl (allFormed_singleton.mpr hado) h.bound ?_
        simp only [inFlight,Pending.held,bytesOf_singleton,hbyt]
        omega
      have hbef : ∀ q w, Event.resume ⟨call,bytes,.reserved previous⟩ weak = .resume q w →
          ¬(q.pc = .entered ∨ ∃ previous, q.pc = .seen previous) := by
        rintro q w hq
        obtain ⟨rfl,-⟩ : _=q ∧ weak=w := by simpa using hq
        simp
      cases call with
      | resizeExternal self payload =>
        obtain ⟨rfl,rfl⟩ := hstep
        exact ⟨hclo _,rfl,rfl,by simp [released],nofun,nofun,
          fun q w hq hpc => absurd hpc (hbef q w hq)⟩
      | _ =>
        obtain ⟨rfl,rfl⟩ := hstep
        exact ⟨hgoes _,rfl,rfl,by simp [released],nofun,nofun,
          fun q w hq hpc => absurd hpc (hbef q w hq)⟩
    | closing =>
      simp only [fetchSub_zero h.used_lt] at hstep
      obtain ⟨rfl,rfl⟩ := hstep
      refine ⟨?_,rfl,rfl,?_,nofun,nofun,fun _ _ _ _ => .inl rfl⟩
      · exact h.finish hp rfl hfmd (by simp [inFlight,Pending.held])
      · intro b hb
        obtain rfl : 0=b := by simpa [released] using hb
        exact ⟨zero_le,Nat.add_zero _⟩

lemma Inv.step {e : Event} (h : Inv z s) (hstep : s.step z e = some (s',o)) :
    Inv z s' ∧ Keeps z s e s' o := by
  cases e with
  | invoke call => exact h.invoke hstep
  | resume p weak => exact h.resume hstep

lemma Inv.run (h : Inv z s) (events : List Event) (hrun : s.run z events = some s') :
    Inv z s' ∧ s'.limit=s.limit ∧ s'.fixed=s.fixed := by
  induction events generalizing s with
  | nil =>
    obtain rfl : s=s' := Option.some.inj hrun
    exact ⟨h,rfl,rfl⟩
  | cons e es ih =>
    obtain ⟨⟨t,o⟩,hstep,hrest⟩ := bind_eq_some_iff.mp hrun
    obtain ⟨hinv,hkee⟩ := h.step hstep
    obtain ⟨hinv',hlim,hfix⟩ := ih hinv hrest
    exact ⟨hinv',hlim.trans hkee.limit,hfix.trans hkee.fixed⟩

end

/-- A plain budget, or one of its own handles and backing. -/
def State.create (z : Sizes) (owned : Bool) (limit : ℕ) : Option State :=
  if owned then State.newOwned z limit else State.new limit

/-- What stays charged whoever lives: nothing on a plain budget, backing and bootstrap on an owned
one. -/
def fixedBytes (z : Sizes) (owned : Bool) : ℕ :=
  if owned then z.arcBacking+z.bootstrapTransition else 0

lemma new_inv (h : new limit = some s) :
    s.limit=limit ∧ s.fixed=0 ∧ limit ≤ maxAllocationBytes ∧ Inv z s := by
  unfold new at h
  split at h
  · cases h
  next hlim =>
    cases h
    have hle : limit ≤ maxAllocationBytes := by omega
    exact ⟨rfl,rfl,hle,⟨rfl,zero_le,hle,nofun,nofun⟩⟩

lemma create_inv {owned : Bool} (h : State.create z owned limit = some s) :
    s.limit=limit ∧ s.fixed = fixedBytes z owned ∧ Inv z s := by
  cases owned with
  | false =>
    obtain ⟨hlim,hfix,-,hinv⟩ := new_inv (z := z) h
    exact ⟨hlim,hfix,hinv⟩
  | true =>
    obtain ⟨fresh,hfrs,h⟩ := bind_eq_some_iff.mp h
    obtain ⟨hlim,-,hmax,-⟩ := new_inv (z := z) hfrs
    obtain ⟨sum,hsum,h⟩ := bind_eq_some_iff.mp h
    obtain ⟨initial,hini,h⟩ := bind_eq_some_iff.mp h
    obtain ⟨-,rfl⟩ := checkedAdd_eq_some.mp hsum
    obtain ⟨-,rfl⟩ := checkedAdd_eq_some.mp hini
    split at h
    · cases h
    next hfits =>
      cases h
      have hpnd : fresh.pending=0 := by
        unfold new at hfrs
        split at hfrs <;> cases hfrs
        rfl
      refine ⟨hlim,rfl,?_,not_lt.mp hfits,hlim ▸ hmax,?_,?_⟩
      · simp [State.guards,State.inFlight,hpnd,Guard.bytes]
      · simp [AllFormed,State.guards,hpnd,Guard.WellFormed]
      · simp [hpnd]

/-- In every state of every interleaving the counter is what the guards hold and what is in flight,
above the fixed charge, and within the limit; and every further step keeps the account. -/
theorem counter_exact {owned : Bool} {limit : ℕ} {start : State} (events : List Event)
    (created : State.create z owned limit = some start) (hrun : start.run z events = some s) :
    s.used = fixedBytes z owned+bytesOf z (s.guards z)+s.inFlight ∧ s.used≤limit ∧
    ∀ e s' o, s.step z e = some (s',o) → Keeps z s e s' o := by
  obtain ⟨hlim,hfix,hinv⟩ := create_inv created
  obtain ⟨hinv',hlim',hfix'⟩ := hinv.run events hrun
  refine ⟨?_,?_,fun e s' o hstep => (hinv'.step hstep).2⟩
  · rw [← hfix,← hfix']
    exact hinv'.balance
  · rw [← hlim,← hlim']
    exact hinv'.bound

/-- A charge of eight bytes on an owned budget whose only handle is then dropped. -/
def chargeThenDrop : List Event :=
  [.invoke (.chargeOwned 8),.resume ⟨.chargeOwned 8,24,.entered⟩ false,
    .resume ⟨.chargeOwned 8,24,.seen 198⟩ false,.resume ⟨.chargeOwned 8,24,.reserved 198⟩ false,
    .invoke (.drop .owner)]

theorem counter_exact_charge :
    let z : Sizes := ⟨16,16,8,40,150⟩
    let s : State := ⟨4096,214,222,190,{.owned 24},0⟩
    s.used = fixedBytes z true+bytesOf z (s.guards z)+s.inFlight :=
  (@counter_exact _ _ true 4096 ⟨4096,198,198,190,{.owner},0⟩ chargeThenDrop (by decide +kernel)
    (by decide +kernel)).1

/-- The bootstrap outlives every handle, so the guards do not account for the whole counter. -/
theorem bootstrap_outlives_handles :
    let z : Sizes := ⟨16,16,8,40,150⟩
    ∃ start s, State.newOwned z 4096 = some start ∧ start.run z chargeThenDrop = some s ∧
      s.used ≠ bytesOf z (s.guards z)+s.inFlight :=
  ⟨⟨4096,198,198,190,{.owner},0⟩,⟨4096,214,222,190,{.owned 24},0⟩,by decide +kernel,by decide +kernel,
    by decide⟩

end Pllm.Garble.SharedAllocation
