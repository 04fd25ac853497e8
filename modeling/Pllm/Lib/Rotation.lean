import Mathlib

/-! A partition of `[0,n)` moved around the cycle: sorted again, its intervals carry the pieces that
their points came from, also after one interval is added at the front or split. -/
namespace Pllm.Lib.Rotation
open List

/-- Intervals by their starts, each with the number of its piece, up to `n`: none is empty, and `P`
relates the points of an interval to its piece. -/
def Carries (n : ℕ) (P : ℕ → ℕ → Prop) : List (ℕ × ℕ) → Prop
  | [] => True
  | (a,i)::rest =>
    (a < (rest.head?.map Prod.fst).getD n
      ∧ ∀ y, a≤y → y < (rest.head?.map Prod.fst).getD n → P y i) ∧ Carries n P rest

/-- Where the interval at the head of a list ends. -/
def stop (n : ℕ) (rest : List (ℕ × ℕ)) : ℕ := (rest.head?.map Prod.fst).getD n

@[simp] lemma stop_nil (n : ℕ) : stop n []=n := rfl
@[simp] lemma stop_cons (n : ℕ) (e : ℕ × ℕ) (rest : List (ℕ × ℕ)) : stop n (e::rest)=e.1 := rfl

section
variable {n : ℕ} {P : ℕ → ℕ → Prop} {entries : List (ℕ × ℕ)}

lemma carries_cons {a i : ℕ} {rest : List (ℕ × ℕ)} : Carries n P ((a,i)::rest) ↔
    (a < stop n rest ∧ ∀ y, a≤y → y < stop n rest → P y i) ∧ Carries n P rest := Iff.rfl

section
variable (h : Carries n P entries)
include h

/-- Intervals of at least one point each leave room for one another. -/
lemma Carries.stop_add_length : stop n entries+entries.length ≤ n := by
  induction entries with
  | nil => simp
  | cons e rest ih =>
    obtain ⟨⟨hlt,-⟩,hrest⟩ := h
    have hle := ih hrest
    change e.1 < stop n rest at hlt
    simp only [stop_cons,length_cons]
    omega

lemma Carries.lt : ∀ e∈entries, stop n entries ≤ e.1 ∧ e.1<n := by
  induction entries with
  | nil => simp
  | cons e rest ih =>
    obtain ⟨⟨hlt,-⟩,hrest⟩ := h
    change e.1 < stop n rest at hlt
    have hle := hrest.stop_add_length
    intro f hf
    rcases mem_cons.mp hf with rfl | hf
    · simp only [stop_cons]
      omega
    · obtain ⟨h1,h2⟩ := ih hrest f hf
      simp only [stop_cons]
      omega

/-- The boundaries increase. -/
lemma Carries.pairwise : (entries.map Prod.fst++[n]).Pairwise (·<·) := by
  induction entries with
  | nil => simp
  | cons e rest ih =>
    obtain ⟨⟨hlt,-⟩,hrest⟩ := h
    change e.1 < stop n rest at hlt
    have hle := hrest.stop_add_length
    rw [map_cons,cons_append,pairwise_cons]
    refine ⟨fun b hb => ?_,ih hrest⟩
    rcases mem_append.mp hb with hb | hb
    · obtain ⟨f,hf,rfl⟩ := mem_map.mp hb
      obtain ⟨h1,-⟩ := hrest.lt f hf
      omega
    · obtain rfl := mem_singleton.mp hb
      omega

/-- A point between two neighbouring boundaries belongs to the piece of its interval. -/
lemma Carries.get {j y : ℕ} (hj : j<entries.length) (hlow : (entries.map
    Prod.fst++[n]).getD j 0 ≤ y) (hhigh : y < (entries.map Prod.fst++[n]).getD (j+1) 0) : P y
    ((entries.map Prod.snd).getD j 0) := by
  induction entries generalizing j with
  | nil => simp at hj
  | cons e rest ih =>
    obtain ⟨⟨-,hpoi⟩,hrest⟩ := h
    cases j with
    | zero =>
      refine hpoi y hlow ?_
      cases rest with
      | nil => exact hhigh
      | cons f rest => exact hhigh
    | succ j => exact ih hrest (by simpa using hj) hlow hhigh

end

/-- Splitting the first interval of two points or more. -/
def splitFirst (n : ℕ) : List (ℕ × ℕ) → List (ℕ × ℕ)
  | [] => []
  | (a,i)::rest =>
    if (rest.head?.map Prod.fst).getD n-a≥2 then (a,i)::(a+1,i)::rest
    else (a,i)::splitFirst n rest

@[simp] lemma stop_splitFirst (entries : List (ℕ × ℕ)) :
    stop n (splitFirst n entries) = stop n entries := by
  cases entries with
  | nil => rfl
  | cons e rest =>
    rw [splitFirst]
    split <;> rfl

lemma Carries.splitFirst (h : Carries n P entries) : Carries n P (splitFirst n entries) := by
  induction entries with
  | nil => trivial
  | cons e rest ih =>
    obtain ⟨⟨hlt,hpoi⟩,hrest⟩ := h
    rw [Rotation.splitFirst]
    split
    · next htwo =>
      refine ⟨⟨Nat.lt_succ_self _,fun y h1 h2 => hpoi y h1 ?_⟩,
        ⟨⟨?_,fun y h1 h2 => hpoi y (by omega) h2⟩,hrest⟩⟩
      · change y < e.1+1 at h2
        omega
      · omega
    · have hstop : stop n (Rotation.splitFirst n rest)=stop n rest := stop_splitFirst rest
      refine carries_cons.mpr ⟨?_,ih hrest⟩
      rw [hstop]
      exact ⟨hlt,hpoi⟩

/-- Unless every interval is a point, one is split. -/
lemma Carries.length_splitFirst (h : Carries n P entries) (hroom : stop n entries+entries.length ≠
    n) : (Rotation.splitFirst n entries).length = entries.length+1 := by
  induction entries with
  | nil => exact absurd rfl hroom
  | cons e rest ih =>
    obtain ⟨⟨hlt,-⟩,hrest⟩ := h
    change e.1 < stop n rest at hlt
    rw [Rotation.splitFirst]
    split
    · rfl
    · next htwo =>
      change ¬stop n rest-e.1≥2 at htwo
      simp only [stop_cons,length_cons] at hroom
      rw [length_cons,ih hrest (by omega),length_cons]

/-- Intervals in the order of their starts carry the pieces with the last start before a point. -/
lemma carries_of_sorted (hsrt : entries.Pairwise fun e f => e.1<f.1) (hlt : ∀ e∈entries, e.1<n)
    (hP : ∀ e∈entries, ∀ y, e.1≤y → y<n → (∀ f∈entries, f.1≤y → f.1≤e.1) → P y e.2) : Carries n P
    entries := by
  have hsuf : ∀ before after, entries=before++after → Carries n P after := by
    intro before after
    induction after generalizing before with
    | nil => exact fun _ => trivial
    | cons e rest ih =>
      intro hspl
      have hpair := hspl ▸ hsrt
      obtain ⟨-,hrest,hbef⟩ := pairwise_append.mp hpair
      obtain ⟨hnext,-⟩ := pairwise_cons.mp hrest
      have hmem : e∈entries := by rw [hspl]; simp
      have hstop : e.1 < stop n rest ∧ stop n rest ≤ n ∧ ∀ f∈rest, stop n rest ≤ f.1 := by
        cases rest with
        | nil => exact ⟨hlt e hmem,le_rfl,by simp⟩
        | cons g rest =>
          obtain ⟨hg,-⟩ := pairwise_cons.mp (pairwise_cons.mp hrest).2
          refine ⟨hnext g (by simp),(hlt g (by rw [hspl]; simp)).le,fun f hf => ?_⟩
          rcases mem_cons.mp hf with rfl | hf
          · exact le_rfl
          · exact (hg f hf).le
      refine carries_cons.mpr ⟨⟨hstop.1,fun y h1 h2 => ?_⟩,
        ih (before++[e]) (by rw [hspl]; simp)⟩
      refine hP e hmem y h1 (h2.trans_le hstop.2.1) fun f hf hfy => ?_
      rw [hspl] at hf
      rcases mem_append.mp hf with hf | hf
      · exact (hbef f hf e (by simp)).le
      · rcases mem_cons.mp hf with rfl | hf
        · exact le_rfl
        · have hge := hstop.2.2 f hf
          omega
  exact hsuf [] entries rfl

end

section
variable {n m mask x y : ℕ} {b : ℕ → ℕ}

/-- The piece with the last start at or before a point. -/
def Owns (m : ℕ) (b : ℕ → ℕ) (x i : ℕ) : Prop := b i ≤ x ∧ ∀ k < m, b k ≤ x → b k ≤ b i

/-- A start after it is moved. -/
lemma moved_cases (hmask : mask<n) {a : ℕ} (ha : a<n) :
    (a+mask)%n=a+mask ∧ a+mask<n ∨ (a+mask)%n+n=a+mask ∧ n≤a+mask := by
  rcases lt_or_ge (a+mask) n with h | h
  · exact .inl ⟨Nat.mod_eq_of_lt h,h⟩
  · rw [Nat.mod_eq_sub_mod h,Nat.mod_eq_of_lt (by omega)]
    omega

section
variable (hm : 0 < m) (hzero : b 0 = 0) (hlt : ∀ k < m, b k < n) (hmask : mask<n) (hx : x<n) (hy : y=(x+mask)%n) {i : ℕ} (hi : i < m)
include hm hzero hlt hmask hx hy hi

/-- The piece with the last moved start at or before the moved point owns the point. -/
lemma owns_of_last (hle : (b i+mask)%n ≤ y)
    (hlast : ∀ k < m, (b k+mask)%n ≤ y → (b k+mask)%n ≤ (b i+mask)%n) : Owns m b x i := by
  have hpoi := moved_cases hmask hx
  have hbd := hlt i hi
  have hown := moved_cases hmask hbd
  have hfst := moved_cases hmask (hlt 0 hm)
  have hfirst' := hlast 0 hm
  have hown' : b i ≤ x := by omega
  refine ⟨hown',fun k hk hkx => ?_⟩
  have hbound' := hlt k hk
  have hoth := moved_cases hmask hbound'
  have hother' := hlast k hk
  omega

/-- Before the first moved start the piece with the last one owns the point. -/
lemma owns_of_wrapped (hbef : ∀ k < m, y < (b k+mask)%n) (hlast : ∀ k < m,
    (b k+mask)%n ≤ (b i+mask)%n) : Owns m b x i := by
  have hpoi := moved_cases hmask hx
  have hbd := hlt i hi
  have hown := moved_cases hmask hbd
  have hfst := moved_cases hmask (hlt 0 hm)
  have hfirst' := hlast 0 hm
  have hfirst'' := hbef 0 hm
  have hown' : b i ≤ x := by omega
  refine ⟨hown',fun k hk hkx => ?_⟩
  have hbound' := hlt k hk
  have hoth := moved_cases hmask hbound'
  have hother' := hlast k hk
  have hother'' := hbef k hk
  omega

end

end

end Pllm.Lib.Rotation
