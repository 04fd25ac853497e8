import Pllm.Decoder.GreedyVerification

/-! Both controllers give the tokens of plain greedy decoding and keep the rows of the prompt and of all
of these tokens but the last. -/
namespace Pllm.Decoder.GreedyVerification
open Pllm.Lib Exec List GreedyVerification.Runtime

variable {R V : Type}

namespace Target
variable (T : Target R V)

/-- The rows kept for a history. -/
def rows (history : List ℤ) : List R := (T.block [] history).1

/-- The scores of the token after a history. -/
def scores (history : List ℤ) : List V := ((T.block [] history).2.getLast?).getD []

lemma block_append (c : List R) (a b : List ℤ) : T.block c (a++b) =
    ((T.block (T.block c a).1 b).1,(T.block c a).2++(T.block (T.block c a).1 b).2) := by
  induction a generalizing c with
  | nil => rfl
  | cons t a ih => rw [cons_append,block,ih,block,cons_append]

section
variable (c : List R) (ids : List ℤ)

lemma length_block :
    (T.block c ids).1.length = c.length+ids.length ∧ (T.block c ids).2.length = ids.length := by
  induction ids generalizing c with
  | nil => exact ⟨rfl,rfl⟩
  | cons t ids ih =>
    obtain ⟨first,second⟩ := ih (c++[(T.step c t).1])
    rw [length_append,length_singleton] at first
    refine ⟨first.trans ?_,congrArg (·+1) second⟩
    rw [length_cons]
    omega

lemma width_block : ∀ row ∈ (T.block c ids).2,row.length=T.vocabSize := by
  induction ids generalizing c with
  | nil => exact fun row m => absurd m not_mem_nil
  | cons t ids ih =>
    intro row m
    rcases mem_cons.mp m with rfl | m
    · exact T.width c t
    · exact ih _ row m

lemma prefix_block : c <+: (T.block c ids).1 := by
  induction ids generalizing c with
  | nil => exact prefix_rfl
  | cons t ids ih => exact (prefix_append c _).trans (ih _)

end

lemma rows_append (a b : List ℤ) : T.rows (a++b) = (T.block (T.rows a) b).1 := by
  rw [rows,block_append,rows]

variable (h : List ℤ)

lemma length_rows : (T.rows h).length = h.length :=
  (T.length_block [] h).1.trans (zero_add _)

lemma take_rows (a b : List ℤ) : (T.rows (a++b)).take a.length = T.rows a := by
  rw [rows_append,← T.length_rows a]
  exact (prefix_iff_eq_take.mp (T.prefix_block (T.rows a) b)).symm

lemma scores_snoc (t : ℤ) : T.scores (h++[t]) = (T.step (T.rows h) t).2 := by
  rw [scores,block_append]
  change (((T.block [] h).2++[(T.step (T.rows h) t).2]).getLast?).getD []=_
  rw [getLast?_concat,Option.getD_some]

lemma rows_snoc (t : ℤ) : T.rows (h++[t]) = T.rows h++[(T.step (T.rows h) t).1] := by
  rw [rows_append]
  rfl

/-- The scores after a history and after each token that follows it. -/
def scored : List ℤ → List ℤ → List (List V)
  | h,[] => [T.scores h]
  | h,t::ts => T.scores h::scored (h++[t]) ts

lemma block_scored (t : ℤ) (ts : List ℤ) :
    (T.block (T.rows h) (t::ts)).2 = T.scored (h++[t]) ts := by
  induction ts generalizing h t with
  | nil => rw [scored,scores_snoc]; rfl
  | cons u ts ih =>
    have rest := ih (h++[t]) u
    rw [rows_snoc] at rest
    rw [scored,scores_snoc,← rest]
    rfl

variable [LinearOrder V]

/-- Plain greedy decoding: the token with the largest score, the first of them, step by step. -/
def plain : List ℤ → ℕ → List ℤ
  | _,0 => []
  | h,n+1 => (argmax (T.scores h):ℤ)::plain (h++[(argmax (T.scores h):ℤ)]) n

lemma length_plain (h : List ℤ) (n : ℕ) : (T.plain h n).length = n := by
  induction n generalizing h with
  | zero => rfl
  | succ n ih => exact congrArg (·+1) (ih _)

lemma plain_add (h : List ℤ) (m n : ℕ) :
    T.plain h (m+n) = T.plain h m++T.plain (h++T.plain h m) n := by
  induction m generalizing h with
  | zero => rw [zero_add,plain,nil_append,append_nil]
  | succ m ih =>
    rw [add_right_comm,plain,plain,ih,append_assoc]
    rfl

lemma accept_scored (h ts : List ℤ) : ∃ a s,accept ts (T.scored h ts)=a ∧ a≤ts.length ∧
    (T.scored h ts)[a]? = some s ∧ s = T.scores (h++ts.take a) ∧
    ts.take a++[(argmax s:ℤ)] = T.plain h (a+1) := by
  induction ts generalizing h with
  | nil => exact ⟨0,T.scores h,rfl,le_rfl,rfl,congrArg T.scores (append_nil h).symm,rfl⟩
  | cons t ts ih =>
    by_cases same : t=argmax (T.scores h)
    · obtain ⟨a,s,count,le,at',now,plain⟩ := ih (h++[t])
      refine ⟨a+1,s,?_,Nat.succ_le_succ le,at',?_,?_⟩
      · rw [scored,accept,if_neg (not_not.mpr same),count]
      · rw [now,append_assoc]
        rfl
      · rw [Target.plain,take_succ_cons,cons_append,plain,← same]
    · refine ⟨0,T.scores h,?_,zero_le,rfl,congrArg T.scores (append_nil h).symm,rfl⟩
      rw [scored,accept,if_pos same]

end Target

lemma exists_max [LinearOrder V] {l : List V} (some : l ≠ []) : ∃ x∈l,∀ y∈l,y≤x := by
  obtain ⟨x,member,most⟩ := l.toFinset.exists_max_image id (toFinset_nonempty_iff l |>.mpr some)
  exact ⟨x,mem_toFinset.mp member,fun y my => most y (mem_toFinset.mpr my)⟩

lemma argmax_lt [LinearOrder V] {scores : List V} (some : scores ≠ []) :
    argmax scores < scores.length := by
  obtain ⟨x,member,most⟩ := exists_max some
  exact findIdx_lt_length_of_exists ⟨x,member,decide_eq_true most⟩

lemma Target.scores_length (T : Target R V) {h : List ℤ} (some : h ≠ []) :
    (T.scores h).length = T.vocabSize := by
  obtain ⟨rest,t,rfl⟩ := (eq_nil_or_concat' h).resolve_left some
  rw [T.scores_snoc,T.width]

section
variable (T : Target R V)

lemma yields_evaluate (ids : List ℤ) {r : Runtime R} (post : List (List V) → Runtime R → Prop)
    (h : post (T.block r.caches ids).2 { r with
      caches := (T.block r.caches ids).1
      position := r.position+ids.length
      evaluated := r.evaluated+ids.length }) : Yields (evaluate T ids) r post := by
  intro deny k
  rw [wp,evaluate]
  cases answer : deny k with
  | none => exact h
  | some e => exact ⟨k,e,answer⟩

lemma yields_forwardIds (history : List ℤ) (t : ℤ) {r : Runtime R}
    (caches : r.caches = T.rows history) :
    Yields (forwardIds T [t]) r fun scores r' => scores = T.scores (history++[t]) ∧ r' = { r with
        caches := T.rows (history++[t])
        position := r.position+1
        evaluated := r.evaluated+1 } := by
  refine .require (cons_ne_nil t []) (Meets.bind (yields_evaluate T [t]
    (fun rows r' => rows = [T.scores (history++[t])] ∧ r' = { r with
        caches := T.rows (history++[t])
        position := r.position+1
        evaluated := r.evaluated+1 }) ?_) ?_)
  · rw [caches,T.scores_snoc,T.rows_append]
    exact ⟨rfl,rfl⟩
  · rintro rows r' ⟨rfl,rfl⟩
    exact .value ⟨rfl,rfl⟩

/-- The snapshots after each token that follows a history. -/
def snapshots : List ℤ → List ℤ → List (Snapshot R)
  | _,[] => []
  | h,t::ts => ⟨(h++[t]).length,T.rows (h++[t]),none⟩::snapshots (h++[t]) ts

lemma snapshots_get (h ts : List ℤ) (a : ℕ) (le : a≤ts.length) :
    ((⟨h.length,T.rows h,none⟩ : Snapshot R)::snapshots T h ts)[a]? =
      some ⟨(h++ts.take a).length,T.rows (h++ts.take a),none⟩ := by
  induction ts generalizing h a with
  | nil =>
    obtain rfl := le_zero_iff.mp le
    rw [take_zero,append_nil]
    rfl
  | cons t ts ih =>
    cases a with
    | zero =>
      rw [take_zero,append_nil]
      rfl
    | succ a =>
      rw [take_succ_cons,append_cons]
      exact ih (h++[t]) a (Nat.le_of_succ_le_succ le)

lemma yields_score (history tokens : List ℤ) {r : Runtime R} (caches : r.caches = T.rows history)
    (position : r.position=history.length) (basis : r.basis=none) :
    Yields (score T tokens) r fun scored r' =>
      T.scores history::scored.1 = T.scored history tokens ∧
      scored.2 = snapshots T history tokens ∧ r' = { r with
        caches := T.rows (history++tokens)
        position := r.position+tokens.length
        evaluated := r.evaluated+tokens.length } := by
  induction tokens generalizing history r with
  | nil =>
    refine .value ⟨rfl,rfl,?_⟩
    rw [append_nil,← caches]
    rfl
  | cons t ts ih =>
    refine (yields_forwardIds T history t caches).bind ?_
    rintro scores r' ⟨rfl,rfl⟩
    refine .read ((ih (history++[t]) ?_ ?_ ?_).bind ?_)
    · rfl
    · rw [length_append,position]
      rfl
    · exact basis
    · rintro ⟨rest,saved⟩ r' ⟨first,second,rfl⟩
      refine .value ⟨?_,?_,?_⟩
      · rw [Target.scored,← first]
      · rw [snapshots,← second,basis,position,length_append]
        rfl
      · simp only [append_assoc,length_cons]
        congr 1
        · omega
        · omega

variable [LinearOrder V]

/-- What holds between two windows: the tokens are those of plain decoding, and the cache has the rows
of all of them that were fed. -/
structure Serial.Holds (prompt : List ℤ) (before : ℕ) (s : Serial V) (r : Runtime R) : Prop where
  generated : s.generated = T.plain prompt s.generated.length
  history : s.history++s.pending.toList = prompt++s.generated
  caches : r.caches = T.rows s.history
  position : r.position=s.history.length
  basis : r.basis=none
  logits : s.pending=none → s.logits = T.scores s.history
  offered : s.offered=s.accepted+s.wasted
  rows : r.evaluated=before+s.targetRows

lemma yields_feed (prompt : List ℤ) (before : ℕ) {s : Serial V} {r : Runtime R}
    (h : s.Holds T prompt before r) : Yields (feed T s) r fun s' r' =>
      s'.Holds T prompt before r' ∧ s'.pending=none ∧ s'.generated=s.generated := by
  rw [feed]
  cases found : s.pending with
  | none => exact .value ⟨h,found,rfl⟩
  | some token =>
    refine (yields_forwardIds T s.history token h.caches).bind ?_
    rintro scores r' ⟨rfl,rfl⟩
    have history := h.history
    rw [found] at history
    refine .value ⟨⟨h.generated,?_,rfl,?_,h.basis,fun _ => rfl,h.offered,?_⟩,rfl,rfl⟩
    · exact (append_nil _).trans history
    · rw [h.position,length_append]
      rfl
    · rw [h.rows]
      rfl

/-- A drafter that returns vectors of the size asked for whose tokens are in bounds. -/
def Proposes (propose : ℕ → List ℤ → ℕ → Option (List ℤ)) (bound : ℤ → Bool) : Prop :=
  ∀ index history cap,1 ≤ cap → ∃ tokens,propose index history cap = some tokens ∧
    1≤tokens.length ∧ tokens.length ≤ cap ∧ tokens.all bound = true

variable {propose : ℕ → List ℤ → ℕ → Option (List ℤ)}

lemma yields_draft {bound : ℤ → Bool}
    (proposes : Proposes propose bound) (index : ℕ) (history : List ℤ) {cap : ℕ} (some : 1 ≤ cap)
    {r : Runtime R} : Yields (draft propose index history cap bound) r fun tokens r' =>
      (1≤tokens.length ∧ tokens.length ≤ cap ∧ tokens.all bound = true) ∧ r'=r := by
  obtain ⟨tokens,found,fine⟩ := proposes index history cap some
  refine .request (.expect found (.require fine ?_))
  exact .value ⟨fine,rfl⟩

variable {prompt : List ℤ}

/-- The tokens after a window: the accepted proposals and the correction continue plain decoding. -/
lemma plain_continues {generated accepted : List ℤ} {a : ℕ} {s : List V}
    (before : generated = T.plain prompt generated.length) (after : accepted++[(argmax s:ℤ)] =
    T.plain (prompt++generated) (a+1)) : generated++(accepted++[(argmax s:ℤ)]) = T.plain prompt
    (generated++(accepted++[(argmax s:ℤ)])).length := by
  have size : (accepted++[(argmax s:ℤ)]).length=a+1 := by rw [after,T.length_plain]
  rw [length_append,size,T.plain_add,← before,← after]

lemma yields_serialWindow (prompt : List ℤ) (before : ℕ) (proposes : Proposes propose fun token => decide (0≤token)) {cap : ℕ} (some : 1 ≤ cap) {s :
    Serial V} {r : Runtime R} (h : s.Holds T prompt before r) (fed : s.pending=none) :
    Yields (serialWindow T propose cap s) r fun s' r' => s'.Holds T prompt before r' ∧
      s'.pending≠none ∧ s.generated.length+1 ≤ s'.generated.length ∧
        s'.generated.length ≤ s.generated.length+cap+1 := by
  have history : s.history=prompt++s.generated := by
    rw [← h.history,fed]
    exact (append_nil _).symm
  refine (yields_draft proposes s.windows s.history some).bind ?_
  rintro ps r' ⟨⟨-,most,-⟩,rfl⟩
  refine .read ((yields_score T s.history ps h.caches h.position h.basis).bind ?_)
  rintro ⟨scores,saved⟩ r'' ⟨first,second,rfl⟩
  obtain ⟨a,last,count,le,found,now,plain⟩ := T.accept_scored s.history ps
  have all : s.logits::scores=T.scored s.history ps := by rw [h.logits fed,← first]
  have snapshot : (r'.snapshot::saved)[a]? = Option.some
      ⟨(s.history++ps.take a).length,T.rows (s.history++ps.take a),none⟩ := by
    rw [← snapshots_get T s.history ps a le,← second,Runtime.snapshot,h.position,h.caches,h.basis]
  simp only [all,count]
  refine .expect snapshot (.modify (.expect found (.value ⟨?_,?_,?_,?_⟩)))
  · refine ⟨?_,?_,rfl,rfl,h.basis,nofun,?_,?_⟩
    · exact plain_continues T h.generated (history ▸ plain)
    · change s.history++ps.take a++[_]=prompt++(s.generated++(ps.take a++[_]))
      rw [history,append_assoc,append_assoc]
    · change s.offered+ps.length=s.accepted+a+(s.wasted+(ps.length-a))
      rw [h.offered]
      omega
    · change r'.evaluated+ps.length=before+(s.targetRows+ps.length)
      rw [h.rows,add_assoc]
  · exact Option.some_ne_none _
  · simp only [length_append,length_singleton]
    omega
  · simp only [length_append,length_take,length_singleton]
    omega

/-- What a controller returns with: the tokens of plain decoding, the rows of the prompt and of all of
them but the last, and counts that add up. -/
structure Finished (prompt : List ℤ) (outs before : ℕ) (generated : List ℤ)
    (offered accepted wasted targetRows : ℕ) (r : Runtime R) : Prop where
  tokens : generated = T.plain prompt outs
  caches : r.caches = T.rows (prompt++(T.plain prompt outs).take (outs-1))
  position : r.position=prompt.length+outs-1
  offered : offered=accepted+wasted
  rows : r.evaluated=before+targetRows

variable {outs : ℕ}

lemma plain_take (prompt : List ℤ) {n : ℕ} (le : n≤outs) :
    (T.plain prompt outs).take n = T.plain prompt n := by
  obtain ⟨rest,rfl⟩ := Nat.exists_eq_add_of_le le
  rw [T.plain_add]
  exact take_left' (T.length_plain prompt n)

lemma fed_prefix {history generated : List ℤ} {p : ℤ}
    (all : history++[p]=prompt++generated) (before : generated = T.plain prompt outs)
    (some : 1≤outs) : history = prompt++(T.plain prompt outs).take (outs-1) := by
  have nonempty : generated ≠ [] := by
    rintro rfl
    have size := congrArg length before
    rw [T.length_plain] at size
    exact absurd size.symm (Nat.one_le_iff_ne_zero.mp some)
  have cut := congrArg dropLast all
  rw [dropLast_concat,dropLast_append_of_ne_nil nonempty,dropLast_eq_take,before,
    T.length_plain] at cut
  exact cut

lemma Serial.Holds.finished {before : ℕ} {s : Serial V} {r : Runtime R} (h : s.Holds
    T prompt before r) (ahead : s.pending≠none) (all : s.generated.length=outs) (some : 1≤outs) :
    Finished T prompt outs before s.generated s.offered s.accepted s.wasted s.targetRows r := by
  obtain ⟨p,pending⟩ := Option.ne_none_iff_exists'.mp ahead
  have tokens : s.generated=T.plain prompt outs := all ▸ h.generated
  have history := h.history
  rw [pending] at history
  have fed := fed_prefix T history tokens some
  refine ⟨tokens,?_,?_,h.offered,h.rows⟩
  · rw [h.caches,fed]
  · have size := congrArg length history
    rw [length_append,length_append,← h.position] at size
    change r.position+1=_ at size
    omega

variable {width : ℕ}

lemma yields_serialLoop (prompt : List ℤ)
    (before : ℕ) (proposes : Proposes propose fun token => decide (0≤token)) (wide : 1≤width)
    (some : 1≤outs) (fuel : ℕ) : ∀ {s : Serial V} {r : Runtime R}, s.Holds T prompt before r →
    (s.pending=none → s.generated = []) → s.generated.length≤outs → outs ≤ s.generated.length+fuel →
    Yields (serialLoop T propose outs width fuel s) r fun s' r' => Finished
    T prompt outs before s'.generated s'.offered s'.accepted s'.wasted s'.targetRows r' := by
  induction fuel with
  | zero =>
    intro s r h first le enough
    have all : s.generated.length=outs := le_antisymm le enough
    refine .value (h.finished T (fun none => ?_) all some)
    rw [first none] at all
    exact absurd all.symm (Nat.one_le_iff_ne_zero.mp some)
  | succ fuel ih =>
    intro s r h first le enough
    rw [serialLoop]
    split
    · refine (yields_feed T prompt before h).bind ?_
      rintro s' r' ⟨h',fed,same⟩
      dsimp only
      split
      · next last =>
        have history : s'.history=prompt++s'.generated := by
          rw [← h'.history,fed]
          exact (append_nil _).symm
        have size : outs=s'.generated.length+1 := by omega
        have tokens : s'.generated++[(argmax s'.logits:ℤ)]=T.plain prompt outs := by
          rw [size,T.plain_add,← h'.generated,h'.logits fed,history]
          rfl
        refine .value ⟨tokens,?_,?_,h'.offered,h'.rows⟩
        · rw [plain_take T prompt (Nat.sub_le outs 1),size,Nat.add_sub_cancel,← h'.generated,
            ← history]
          exact h'.caches
        · have length := congrArg List.length history
          rw [length_append,← h'.position] at length
          omega
      · next more =>
        have room : 1 ≤ min width (outs-s'.generated.length-1) := by
          rw [same] at more ⊢
          omega
        refine (yields_serialWindow T prompt before proposes room h' fed).bind ?_
        rintro s'' r'' ⟨h'',ahead,grown,most⟩
        refine ih h'' (fun none => absurd none ahead) ?_ ?_
        · omega
        · rw [same] at grown
          omega
    · next full =>
      have all : s.generated.length=outs := le_antisymm le (le_of_not_gt full)
      refine .value (h.finished T (fun none => ?_) all some)
      rw [first none] at all
      exact absurd all.symm (Nat.one_le_iff_ne_zero.mp some)

omit [LinearOrder V] in
lemma yields_prepareIds (prompt : List ℤ) (some : prompt ≠ []) (r : Runtime R) :
    Yields (prepareIds T prompt) r fun scores r' => scores = T.scores prompt ∧ r' = { r.reset with
        caches := T.rows prompt
        position := prompt.length
        evaluated := r.evaluated+prompt.length } := by
  obtain ⟨rest,t,rfl⟩ := (eq_nil_or_concat' prompt).resolve_left some
  refine .modify ((yields_evaluate T _ (fun rows r' =>
    rows.getLast? = Option.some (T.scores (rest++[t])) ∧ r' = { r.reset with
        caches := T.rows (rest++[t])
        position := (rest++[t]).length
        evaluated := r.evaluated+(rest++[t]).length }) ?_).bind ?_)
  · refine ⟨?_,?_⟩
    · change (T.block [] (rest++[t])).2.getLast? = _
      rw [T.block_append,T.scores_snoc]
      exact getLast?_concat
    · simp only [reset,zero_add,Target.rows]
  · rintro rows r' ⟨last,rfl⟩
    rw [lastRow,last]
    exact .value ⟨rfl,rfl⟩

/-- Every run whose calls are not turned down ends, with the tokens of plain greedy decoding. -/
lemma yields_verifyGreedy (sizes : 1≤outs ∧ outs≤32 ∧ 1≤width ∧ width≤8)
    (bounded : 1≤prompt.length ∧ prompt.length≤256 ∧ ∀ t∈prompt,0≤t)
    (proposes : Proposes propose fun token => decide (0≤token)) (r : Runtime R) :
    Yields (verifyGreedy T prompt propose outs width) r fun report r' =>
      Finished T prompt outs (r.evaluated+prompt.length) report.tokens report.draftOffered
        report.draftAccepted report.rejectedTargetRows report.targetDecodeRows r' := by
  have nonempty : prompt ≠ [] := ne_nil_of_length_pos bounded.1
  refine .require sizes
    (.require bounded ((yields_prepareIds T prompt nonempty r).bind ?_))
  rintro logits r' ⟨rfl,rfl⟩
  refine (yields_serialLoop T prompt (r.evaluated+prompt.length) proposes sizes.2.2.1 sizes.1 outs
    ⟨rfl,rfl,rfl,rfl,rfl,fun _ => rfl,rfl,rfl⟩ (fun _ => rfl) zero_le
    le_add_self).bind ?_
  intro s r'' finished
  exact .read (.require finished.position (.value finished))

end

/-- What the native schedule admits when it admits a prompt, the outputs and the width: the prefill, and
every block that ends before the last output. -/
structure Contract.Admits (c : Contract) (prompt outs width : ℕ) : Prop where
  installs : c.installs=true
  prefill : prompt ≤ c.prefill.querySequence ∧ prompt ≤ c.prefill.maximumKeySequence ∧
    prompt ≤ c.decode.maximumKeySequence
  whole : outs≤1 ∨ c.admits prompt (outs-1) memoryBytes = true
  blocks : ∀ start query,prompt ≤ start → 1≤query → query≤width+1 →
    start+query≤prompt+outs-1 → c.extraBytes query ≤ 32*2^20 ∧
      c.admits start query (memoryBytes-c.extraBytes query)=true ∧
      c.admits start query memoryBytes = true ∧ query ≤ c.graph.querySequence ∧
      start+query ≤ c.graph.maximumKeySequence ∧ start ≤ c.decode.maximumKeySequence

section
variable (T : Target R V) (c : Contract)

/-- A runtime whose cache is of a history, held by a response. -/
structure Runtime.Held (r : Runtime R) (history : List ℤ) (owner : ℕ) : Prop where
  caches : r.caches = T.rows history
  position : r.position=history.length
  some : 1≤history.length
  basis : ∃ basis,r.basis = Option.some basis ∧ basis.position=r.position ∧
    basis.ownerResponseId = Option.some owner
  continuationOwner : r.continuationOwner = Option.some owner
  live : r.continuationFailed=false

/-- What one block leaves. -/
def Runtime.blocked (r : Runtime R) (history : List ℤ) (owner : ℕ) (ids : List ℤ) : Runtime R :=
  { r with
    caches := T.rows (history++ids)
    position := r.position+ids.length
    evaluated := r.evaluated+ids.length
    basis := Option.some ⟨.incremental,r.position+ids.length,Option.some owner⟩ }

section
variable {r : Runtime R} {history ids : List ℤ} {owner : ℕ}

lemma yields_continueIds (held : r.Held T history owner) (tokens : ∀ t∈ids,0≤t ∧ t<T.vocabSize)
    (admits : c.admits r.position ids.length memoryBytes = true) (some : 1 ≤ ids.length)
    (fits : ids.length ≤ c.graph.querySequence ∧ r.position+ids.length ≤ c.graph.maximumKeySequence
    ∧ r.position ≤ c.decode.maximumKeySequence) : Yields (continueIds T c ids) r fun
    rows r' => rows = (T.block (T.rows history) ids).2 ∧ r' = r.blocked T history owner ids := by
  obtain ⟨basis,found,position,owned⟩ := held.basis
  have start : 1 ≤ r.position := held.position ▸ held.some
  have length : r.caches.length=r.position := by rw [held.caches,T.length_rows,held.position]
  refine .read (.require held.live (Meets.checked _ (.require tokens
    (.require admits (.expect found (.require
      ⟨position ▸ start,position,.inr ⟨?_,?_⟩⟩ (.require ⟨start,fits.2.2,length⟩ ?_)))))))
  · rw [held.continuationOwner]
    exact Option.some_ne_none owner
  · rw [owned,held.continuationOwner]
  · refine .read (.require held.live (.require ?_ (.modify ?_)))
    · simpa using ⟨some,fits.1,fits.2.1⟩
    · refine (yields_evaluate T ids (fun rows r' =>
        rows = (T.block (T.rows history) ids).2 ∧ r' = { r with
          basis := none
          caches := T.rows (history++ids)
          position := r.position+ids.length
          evaluated := r.evaluated+ids.length }) ?_).bind ?_
      · rw [T.rows_append,← held.caches]
        exact ⟨rfl,rfl⟩
      · rintro rows r' ⟨rfl,rfl⟩
        refine .modify (.value ⟨rfl,?_⟩)
        have incremental : ∃ b∈r.basis,b.completedPrefill=false := by
          refine ⟨basis,found,?_⟩
          rw [Basis.completedPrefill,owned]
          exact decide_eq_false fun both => Option.some_ne_none owner both.2
        rw [if_pos (.inr incremental),blocked,held.continuationOwner]

lemma dropLast_getLast {α : Type} (l : List α) : l.dropLast++l.getLast?.toList=l := by
  rcases eq_nil_or_concat' l with rfl | ⟨rest,x,rfl⟩
  · rfl
  · rw [dropLast_concat,getLast?_concat]
    rfl

lemma yields_targetBlock (held : r.Held T history owner) {prompt : ℕ} (admits : c.Admits prompt
    outs width) (tokens : ∀ t∈ids,0≤t ∧ t<T.vocabSize) (after : prompt≤history.length) (some : 1 ≤
    ids.length) (narrow : ids.length≤width+1) (before : history.length+ids.length≤prompt+outs-1) :
    Yields (targetBlock T c ids) r fun rows r' => rows = (T.block (T.rows history) ids).2 ∧
    r' = { r.blocked T history owner ids with observed := false } := by
  obtain ⟨small,first,second,query,keys,rest⟩ := admits.blocks _ _ after some narrow before
  rw [← held.position] at first second keys rest
  refine .require small (.read (.require first (.modify ?_)))
  have observed : ({ r with observed := true } : Runtime R).Held T history owner :=
    ⟨held.caches,held.position,held.some,held.basis,held.continuationOwner,held.live⟩
  refine (Meets.checked _ (yields_continueIds T c observed tokens second some
    ⟨query,keys,rest⟩)).bind ?_
  rintro rows r' ⟨rfl,rfl⟩
  refine .modify (.value ⟨?_,rfl⟩)
  rw [dropLast_getLast]

lemma yields_truncate {cut : List ℤ} (held : r.Held T (history++cut) owner)
    (some : 1≤history.length) : Yields (truncateResponsePrefix history.length owner)
    r fun _ r' => r'.Held T history owner ∧ r'.evaluated=r.evaluated ∧ r'.observed=r.observed := by
  obtain ⟨basis,found,position,owned⟩ := held.basis
  have size : r.position=history.length+cut.length := held.position.trans length_append
  have start : 1 ≤ r.position := by omega
  refine .read (.expect found (.require
    ⟨position ▸ start,position,owned,some,by omega⟩ ?_))
  have cut : r.caches.take history.length=T.rows history := by rw [held.caches,T.take_rows]
  intro deny k
  exact ⟨⟨cut,rfl,some,⟨_,rfl,rfl,rfl⟩,held.continuationOwner,held.live⟩,rfl,rfl⟩

end

variable [LinearOrder V]

variable {r : Runtime R}

lemma yields_emitAccepted (tokens : List ℤ) (scores : List (List V)) :
    Yields (emitAccepted tokens scores) r fun a r' => a = accept tokens scores ∧ r'=r := by
  induction tokens generalizing scores with
  | nil => exact .value ⟨by rw [accept.eq_def],rfl⟩
  | cons t ts ih =>
    cases scores with
    | nil => exact .value ⟨rfl,rfl⟩
    | cons s rest =>
      rw [emitAccepted,accept]
      split
      · exact .value ⟨rfl,rfl⟩
      · refine .request ((ih rest).bind ?_)
        rintro a r' ⟨rfl,rfl⟩
        exact .value ⟨rfl,rfl⟩

/-- What holds between two windows: the last token is not fed yet. -/
structure Batch.Holds (prompt : List ℤ) (before owner : ℕ) (b : Batch V) (r : Runtime R) : Prop where
  generated : b.generated = T.plain prompt b.generated.length
  history : b.history=prompt++b.generated
  fed : ∃ fed p,b.pending = [p] ∧ b.history=fed++[p] ∧ prompt.length≤fed.length ∧
    r.Held T fed owner
  bound : ∀ t∈b.pending,0≤t ∧ t<T.vocabSize
  offered : b.offered=b.acceptedTotal+b.wasted
  rows : r.evaluated=before+b.targetRows

variable {b : Batch V}

omit [LinearOrder V] c in
lemma yields_batchedDraft (proposes : Proposes propose fun t => decide (0≤t ∧ t<T.vocabSize))
    (wide : 1≤width) (more : b.generated.length<outs) :
    Yields (batchedDraft T propose outs width b) r fun tokens r' => (tokens.length≤width ∧
    tokens.length+1+b.generated.length≤outs ∧ ∀ t∈tokens,0≤t ∧ t<T.vocabSize) ∧ r'=r := by
  rw [batchedDraft]
  split
  · refine .value ⟨⟨zero_le,?_,fun t m => absurd m not_mem_nil⟩,rfl⟩
    rw [length_nil]
    omega
  · refine (yields_draft proposes b.windows b.history (by omega)).mono ?_
    rintro tokens r' ⟨⟨-,most,fine⟩,same⟩
    exact ⟨⟨by omega,by omega,fun t m => of_decide_eq_true (all_eq_true.mp fine t m)⟩,same⟩

omit c in
lemma argmax_bound {h : List ℤ} (some : h ≠ []) :
    (0:ℤ) ≤ argmax (T.scores h) ∧ (argmax (T.scores h):ℤ)<T.vocabSize := by
  have width := T.scores_length some
  have inside := argmax_lt (ne_nil_of_length_pos (width ▸ T.positive))
  rw [width] at inside
  exact ⟨Int.natCast_nonneg _,Int.ofNat_lt.mpr inside⟩

section
variable {prompt : List ℤ} {before owner outs width : ℕ}
  {propose : ℕ → List ℤ → ℕ → Option (List ℤ)}

section
variable (proposes : Proposes propose fun t => decide (0≤t ∧ t<T.vocabSize)) (wide : 1≤width)
include proposes wide

lemma yields_batchedWindow (admits : c.Admits prompt.length outs width)
    (h : b.Holds T prompt before owner r) (more : b.generated.length<outs) :
    Yields (batchedWindow T c propose outs width owner b) r fun b' r' => b'.Holds T prompt
    before owner r' ∧ b.generated.length+1≤b'.generated.length ∧ b'.generated.length≤outs := by
  obtain ⟨fed,p,pending,history,after,held⟩ := h.fed
  have size : fed.length+1=prompt.length+b.generated.length := by
    have eq := congrArg length (history.symm.trans h.history)
    rw [length_append,length_append] at eq
    exact eq
  refine (yields_batchedDraft T proposes wide more).bind ?_
  rintro ps r' ⟨⟨narrow,fits,fine⟩,rfl⟩
  obtain ⟨a,last,count,le,found,now,plain⟩ := T.accept_scored b.history ps
  have tokens : ∀ t∈p::ps,0≤t ∧ t<T.vocabSize := by
    intro t member
    rcases mem_cons.mp member with rfl | member
    · exact h.bound t (pending ▸ mem_singleton_self t)
    · exact fine t member
  have block : b.pending++ps=p::ps := by rw [pending]; rfl
  refine .read ?_
  dsimp only
  rw [block,if_neg (cons_ne_nil p ps)]
  refine (yields_targetBlock T c held admits tokens after (Nat.succ_le_succ zero_le)
    (Nat.succ_le_succ narrow) (by rw [length_cons]; omega)).bind ?_
  rintro rows r'' ⟨rfl,rfl⟩
  have scores : (T.block (T.rows fed) (p::ps)).2=T.scored b.history ps := by
    rw [T.block_scored,history]
  refine .require ⟨(T.length_block _ _).2,T.width_block _ _⟩ (.read ?_)
  rw [if_neg (by rw [pending]; exact cons_ne_nil p []),scores]
  refine (yields_emitAccepted ps (T.scored b.history ps)).bind ?_
  rintro _ r'' ⟨rfl,rfl⟩
  rw [count]
  refine .expect found (.request ?_)
  have kept : r'.position+b.pending.length+a=(b.history++ps.take a).length := by
    rw [held.position,pending,history,length_append,length_append,length_take,min_eq_left le]
  have reached : ({ r'.blocked T fed owner (p::ps) with observed := false } : Runtime R).Held T
      ((b.history++ps.take a)++ps.drop a) owner := by
    have whole : (b.history++ps.take a)++ps.drop a=fed++p::ps := by
      rw [append_assoc,take_append_drop,history,append_assoc]
      rfl
    rw [whole]
    refine ⟨rfl,?_,?_,⟨_,rfl,rfl,rfl⟩,held.continuationOwner,held.live⟩
    · change r'.position+(p::ps).length=_
      rw [held.position,length_append]
    · rw [length_append,length_cons]
      omega
  have some : 1 ≤ (b.history++ps.take a).length := by
    rw [length_append,history,length_append]
    exact Nat.le_add_right_of_le (Nat.le_add_left 1 fed.length)
  rw [kept]
  refine (yields_truncate T reached some).bind ?_
  rintro _ r'' ⟨cut,evaluated,-⟩
  have nonempty : b.history++ps.take a ≠ [] := ne_nil_of_length_pos some
  refine .value ⟨⟨?_,?_,⟨b.history++ps.take a,argmax last,rfl,?_,?_,cut⟩,?_,?_,?_⟩,?_,?_⟩
  · exact plain_continues T h.generated (h.history ▸ plain)
  · rw [h.history,append_assoc]
  · exact (append_assoc _ _ _).symm
  · rw [h.history,append_assoc,length_append]
    exact le_self_add
  · intro t member
    rw [mem_singleton.mp member,now]
    exact argmax_bound T nonempty
  · change b.offered+ps.length=b.acceptedTotal+a+(b.wasted+(ps.length-a))
    rw [h.offered]
    omega
  · rw [evaluated]
    change r'.evaluated+(p::ps).length=before+(b.targetRows+(p::ps).length)
    rw [h.rows,add_assoc]
  · simp only [length_append,length_singleton]
    omega
  · simp only [length_append,length_take,length_singleton]
    omega

lemma yields_batchedLoop (some : 1≤outs) (admits : c.Admits prompt.length outs width)
    (fuel : ℕ) : ∀ {b : Batch V} {r : Runtime R},b.Holds T prompt before owner r →
    b.generated.length≤outs → outs≤b.generated.length+fuel → Yields
    (batchedLoop T c propose outs width owner fuel b) r fun b' r' => Finished
    T prompt outs before b'.generated b'.offered b'.acceptedTotal b'.wasted b'.targetRows r' := by
  have finished {b : Batch V} {r : Runtime R} (h : b.Holds T prompt before owner r)
      (all : b.generated.length=outs) : Finished T prompt outs before b.generated b.offered
        b.acceptedTotal b.wasted b.targetRows r := by
    obtain ⟨fed,p,-,history,-,held⟩ := h.fed
    have tokens : b.generated=T.plain prompt outs := all ▸ h.generated
    have whole := history.symm.trans h.history
    have cut := fed_prefix T whole tokens some
    have size := congrArg length whole
    rw [length_append,length_append,length_singleton] at size
    refine ⟨tokens,?_,?_,h.offered,h.rows⟩
    · rw [held.caches,cut]
    · rw [held.position]
      omega
  induction fuel with
  | zero => exact fun h le enough => .value (finished h (le_antisymm le enough))
  | succ fuel ih =>
    intro b r h le enough
    rw [batchedLoop]
    split
    · next more =>
      refine (yields_batchedWindow T c proposes wide admits h more).bind ?_
      rintro b' r' ⟨h',grown,within⟩
      exact ih h' within (by omega)
    · next full => exact .value (finished h (le_antisymm le (le_of_not_gt full)))

end

end

omit [LinearOrder V] in
lemma yields_prefill (some : 1≤prompt.length)
    (live : r.continuationFailed=false) (fits : prompt.length ≤ c.prefill.querySequence ∧
      prompt.length ≤ c.prefill.maximumKeySequence) :
    Yields (prefill T c prompt) r fun scores r' => scores = T.scores prompt ∧ r' = { r.reset with
        caches := T.rows prompt
        position := prompt.length
        evaluated := r.evaluated+prompt.length
        basis := Option.some ⟨.completedPrefill,prompt.length,none⟩ } := by
  have room : 0+prompt.length ≤ c.prefill.maximumKeySequence := (Nat.zero_add _).symm ▸ fits.2
  obtain ⟨rest,t,eq⟩ := (eq_nil_or_concat' prompt).resolve_left (ne_nil_of_length_pos some)
  have last : (T.block [] prompt).2.getLast? = Option.some (T.scores prompt) := by
    rw [eq,T.block_append,T.scores_snoc]
    exact getLast?_concat
  have phase : Yields (forwardPhase T c false prompt) r.reset fun rows r' =>
      rows.getLast? = Option.some (T.scores prompt) ∧ r' = { r.reset with
        caches := T.rows prompt
        position := prompt.length
        evaluated := r.evaluated+prompt.length
        basis := Option.some ⟨.completedPrefill,prompt.length,none⟩ } := by
    refine .read (.require live (.require ⟨some,?_,room⟩ (.modify
      ((yields_evaluate T prompt (fun rows r' =>
        rows.getLast? = Option.some (T.scores prompt) ∧ r' = { r.reset with
          caches := T.rows prompt
          position := prompt.length
          evaluated := r.evaluated+prompt.length }) ?_).bind ?_))))
    · rw [if_neg fun decoding => decoding.2 rfl]
      exact fits.1
    · refine ⟨last,?_⟩
      simp only [reset,zero_add,Target.rows]
    · rintro rows r' ⟨found,rfl⟩
      refine .modify (.value ⟨found,?_⟩)
      simp [reset]
  refine .modify (phase.bind ?_)
  rintro rows r' ⟨found,rfl⟩
  rw [lastRow,found]
  exact .value ⟨rfl,rfl⟩

omit [LinearOrder V] in
lemma yields_ownResponse (owner : ℕ) (caches : r.caches = T.rows prompt) (position :
    r.position=prompt.length) (basis : r.basis=Option.some ⟨.completedPrefill,prompt.length,none⟩)
    (some : 1≤prompt.length) (fits : prompt.length ≤ c.decode.maximumKeySequence)
    (live : r.continuationFailed=false) : Yields
    (ownResponse c owner) r fun _ r' => r'.Held T prompt owner ∧ r'.evaluated=r.evaluated := by
  have length : r.caches.length=r.position := by rw [caches,T.length_rows,position]
  refine .read (.expect basis (.require
    ⟨position ▸ some,position ▸ fits,length⟩ (.require ⟨some,position.symm⟩ ?_)))
  intro deny k
  exact ⟨⟨caches,position,some,⟨_,rfl,position.symm,rfl⟩,rfl,live⟩,rfl⟩

section
variable {prompt : List ℤ} {propose : ℕ → List ℤ → ℕ → Option (List ℤ)} {outs width owner : ℕ}
  {r : Runtime R}

/-- Every run whose calls are not turned down ends, with the tokens of plain greedy decoding. -/
lemma yields_verifyBatchedGreedy (sizes : 1≤outs ∧ outs≤32 ∧ 1≤width ∧ width≤16) (bounded :
    1≤prompt.length ∧ prompt.length≤256 ∧ ∀ t∈prompt,0≤t ∧ t<T.vocabSize) (admits : c.Admits
    prompt.length outs width) (proposes : Proposes propose fun t => decide (0≤t ∧ t<T.vocabSize))
    (live : r.continuationFailed=false) (unobserved : r.observed=false) :
    Yields (verifyBatchedGreedy T c propose prompt outs width owner) r fun report r' =>
      Finished T prompt outs (r.evaluated+prompt.length) report.tokens report.draftOffered
        report.draftAccepted report.rejectedTargetRows report.targetDecodeRows r' := by
  have nonempty : prompt ≠ [] := ne_nil_of_length_pos bounded.1
  have before : Yields (batchedPrefill T c prompt outs width owner) r fun scores r' =>
      scores = T.scores prompt ∧ r'.Held T prompt owner ∧
        r'.evaluated=r.evaluated+prompt.length := by
    refine .require sizes (.require bounded (.require admits.installs (.read
      (.require unobserved (.require admits.whole ((yields_prefill T c bounded.1 live
        ⟨admits.prefill.1,admits.prefill.2.1⟩).bind ?_))))))
    rintro logits r' ⟨rfl,rfl⟩
    refine (yields_ownResponse T c owner ?_ ?_ ?_ bounded.1 admits.prefill.2.2 ?_).bind ?_
    · rfl
    · rfl
    · rfl
    · exact live
    · exact fun _ r' held => .value ⟨rfl,held⟩
  refine before.bind ?_
  rintro logits r' ⟨rfl,held,evaluated⟩
  refine Meets.checked _ (.read (.request ?_))
  have start : Batch.Holds T prompt (r.evaluated+prompt.length) owner
      ⟨prompt++[(argmax (T.scores prompt):ℤ)],[(argmax (T.scores prompt):ℤ)],
        [(argmax (T.scores prompt):ℤ)],T.scores prompt,0,0,0,0,0,0,r'.position⟩ r' :=
    ⟨rfl,rfl,⟨prompt,_,rfl,rfl,le_rfl,held⟩,fun t member => by
      rw [mem_singleton.mp member]
      exact argmax_bound T nonempty,rfl,evaluated⟩
  refine (yields_batchedLoop T c proposes sizes.2.2.1 sizes.1 admits outs start sizes.1
    le_add_self).bind ?_
  intro b r'' finished
  exact .read (.require finished.position (.value finished))

/-- A bad draft is refused. -/
lemma batchedWindow_refuses (more : b.generated.length+1<outs)
    (refused : ∀ tokens,propose b.windows b.history (min width (outs-b.generated.length-1)) =
      Option.some tokens → ¬(1≤tokens.length ∧
        tokens.length ≤ min width (outs-b.generated.length-1) ∧
          ∀ t∈tokens,0≤t ∧ t<T.vocabSize)) (deny : ℕ → Option (Failure R)) (r : Runtime R) (k : ℕ) :
    ∃ e r' j,batchedWindow T c propose outs width owner b deny r k = (.error e,r',j) := by
  have failed : ∃ e r' j,batchedDraft T propose outs width b deny r k=(.error e,r',j) := by
    have draws : wp deny (batchedDraft T propose outs width b) r k (fun _ _ _ => False)
        fun _ _ _ => True := by
      rw [batchedDraft,if_neg (by omega),draft]
      simp only [wp_bind,wp_request,wp_expect,wp_require]
      refine ⟨fun _ => ⟨fun tokens found => ⟨fun fine => refused tokens found ⟨fine.1,fine.2.1,?_⟩,
        fun _ => trivial⟩,fun _ => trivial⟩,fun _ _ => trivial⟩
      exact fun t member => of_decide_eq_true (all_eq_true.mp fine.2.2 t member)
    unfold wp at draws
    generalize batchedDraft T propose outs width b deny r k=run at draws
    obtain ⟨_ | tokens,r',j⟩ := run
    · exact ⟨_,_,_,rfl⟩
    · exact absurd draws id
  obtain ⟨e,r',j,eq⟩ := failed
  exact ⟨e,r',j,bind_error eq⟩

/-- A failure after the prefill and the hand-over leaves the runtime reset. -/
lemma verifyBatchedGreedy_fails {deny : ℕ → Option (Failure R)} {s r' : Runtime R} {k i j : ℕ}
    {logits : List V} {e : Failure R} (before : batchedPrefill T c prompt outs width owner deny r k
    = (.ok logits,s,i)) (failed : verifyBatchedGreedy T c propose prompt outs width owner deny r k =
    (.error e,r',j)) : r'.caches = [] ∧
    r'.position=0 ∧ r'.basis=none ∧ r'.continuationOwner=none ∧ r'.continuationFailed=true := by
  rw [verifyBatchedGreedy,bind_ok before,checked] at failed
  split at failed
  · cases failed
  · cases failed
    exact ⟨rfl,rfl,rfl,rfl,rfl⟩

end

end

/-- Both controllers, for a target that is any deterministic causal decoder: where the drafter's vectors
and the schedule admit it, a run whose calls are not turned down returns, and every returned run has
decoded plainly, kept the rows of the prompt and of all tokens but the last, and counted the rows that
the target evaluated. A bad draft fails, and a failure after the prefill and the hand-over of the
response resets the batched runtime. -/
theorem greedy_verification {R V : Type} [LinearOrder V] (T : Target R V) :
    (∀ (prompt : List ℤ) propose outs width (r : Runtime R), (1≤outs ∧ outs≤32 ∧ 1≤width ∧
      width≤8) → (1≤prompt.length ∧ prompt.length≤256 ∧ ∀ t∈prompt,0≤t) → Proposes propose (fun
      token => decide (0≤token)) →
      Yields (verifyGreedy T prompt propose outs width) r fun report r' =>
        Finished T prompt outs (r.evaluated+prompt.length) report.tokens report.draftOffered
          report.draftAccepted report.rejectedTargetRows report.targetDecodeRows r') ∧
    (∀ (c : Contract) (prompt : List ℤ) propose outs width owner (r : Runtime R), (1≤outs ∧
      outs≤32 ∧ 1≤width ∧ width≤16) → (1≤prompt.length ∧ prompt.length≤256 ∧ ∀ t∈prompt,0≤t ∧
      t<T.vocabSize) → c.Admits prompt.length outs width → Proposes propose (fun t => decide (0≤t
      ∧ t<T.vocabSize)) → r.continuationFailed=false → r.observed=false →
      Yields (verifyBatchedGreedy T c propose prompt outs width owner) r fun report r' =>
        Finished T prompt outs (r.evaluated+prompt.length) report.tokens report.draftOffered
          report.draftAccepted report.rejectedTargetRows report.targetDecodeRows r') ∧
    ∀ (c : Contract) (propose : ℕ → List ℤ → ℕ → Option (List ℤ)) outs width owner
      (deny : ℕ → Option (Failure R)),
      (∀ (b : Batch V) r k,b.generated.length+1<outs →
        (∀ tokens,propose b.windows b.history (min width (outs-b.generated.length-1)) =
          some tokens → ¬(1≤tokens.length ∧
            tokens.length ≤ min width (outs-b.generated.length-1) ∧
              ∀ t∈tokens,0≤t ∧ t<T.vocabSize)) →
        ∃ e r' j,batchedWindow T c propose outs width owner b deny r k = (.error e,r',j)) ∧
      ∀ prompt r k logits s i e r' j,
        batchedPrefill T c prompt outs width owner deny r k = (.ok logits,s,i) →
        verifyBatchedGreedy T c propose prompt outs width owner deny r k = (.error e,r',j) →
        r'.caches = [] ∧ r'.position=0 ∧ r'.basis=none ∧ r'.continuationOwner=none ∧
          r'.continuationFailed=true :=
  ⟨fun _ _ _ _ r sizes bounded proposes => yields_verifyGreedy T sizes bounded proposes r,
    fun c _ _ _ _ _ _ sizes bounded admits proposes live unobserved =>
      yields_verifyBatchedGreedy T c sizes bounded admits proposes live unobserved,
    fun c _ _ _ _ deny => ⟨fun _ r k more refused => batchedWindow_refuses T c more refused deny r k,
      fun _ _ _ _ _ _ _ _ _ before failed => verifyBatchedGreedy_fails T c before failed⟩⟩

def wideContract : Contract := ⟨⟨512,512⟩,⟨512,512⟩,true,fun _ _ _ => true,⟨512,512⟩,1,1⟩

/-- Three tokens that follow each other. -/
def cyclicTarget : Target ℤ ℕ :=
  ⟨3,fun _ t => (t,[if t=2 then 1 else 0,if t=0 then 1 else 0,if t=1 then 1 else 0]),fun _ _ => rfl,
    by decide⟩

/-- A draft whose first token is right now and then. -/
theorem greedy_verification_cyclic : ∃ report r' j,verifyBatchedGreedy cyclicTarget wideContract
        (fun _ _ cap => some (replicate cap 2)) [0] 4 2 0 (fun _ => none)
        ⟨[],0,none,none,false,false,0⟩ 0 = (.ok report,r',j) ∧ report.tokens = [1,2,0,1] ∧ r'.caches = [0,1,2,0] ∧
      report.draftOffered=report.draftAccepted+report.rejectedTargetRows ∧
      r'.evaluated=1+report.targetDecodeRows := by
  have admits : wideContract.Admits 1 4 2 := by
    refine ⟨rfl,by decide,.inr rfl,fun start query _ _ narrow last => ?_⟩
    refine ⟨?_,rfl,rfl,?_,?_,?_⟩ <;> simp only [wideContract,Contract.extraBytes] <;> omega
  have proposes : Proposes (fun _ _ cap => some (replicate cap 2))
      (fun t => decide (0≤t ∧ t<cyclicTarget.vocabSize)) := by
    refine fun _ _ cap some => ⟨_,rfl,?_,?_,?_⟩
    · simpa using some
    · simp
    · simp [cyclicTarget]
  obtain ⟨report,r',j,run,finished⟩ := ((greedy_verification cyclicTarget).2.1 wideContract [0] _ 4 2 0
    ⟨[],0,none,none,false,false,0⟩ (by decide) (by decide) admits proposes rfl rfl).exists_ok
  exact ⟨report,r',j,run,finished.tokens,finished.caches,finished.offered,finished.rows⟩

/-- One token, one layer. -/
def unitTarget : Target Unit ℕ := ⟨1,fun _ _ => ((),[0]),fun _ _ => rfl,Nat.one_pos⟩

/-- The prefill is outside of the part that cleans up: its first layer has written a row. -/
theorem prefill_failure_leaves_rows : ¬∀ (deny : ℕ → Option (Failure Unit))
    (r : Runtime Unit),r.continuationFailed=false → ∀ e r' j,verifyBatchedGreedy unitTarget
    wideContract (fun _ _ _ => some [0]) [0] 1 1 0 deny r 0 = (.error e,r',j) → r'.caches = [] := by
  intro all
  have broken := all (fun _ => some (.target [()])) ⟨[],0,none,none,false,false,0⟩ rfl _ _ _ rfl
  exact absurd broken (cons_ne_nil () [])

end Pllm.Decoder.GreedyVerification
