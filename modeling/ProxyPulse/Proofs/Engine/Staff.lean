import ProxyPulse.Proofs.Engine.Ownership
import ProxyPulse.Proofs.Permits

namespace ProxyPulse

def Load.query? : Load → Option Query
  | .asking _ query => some query
  | .done _ => none

namespace Job

def queries : Job → List Query
  | .loading _ loads => loads.filterMap Load.query?
  | .polling _ _ query => [query]
  | _ => []

def isCoordinating : Job → Bool
  | .coordinating _ => true
  | _ => false

def choices : Job → List String
  | .start (.select _ proxy) => [proxy]
  | .choosing choice _ => if choice.leadsOn then [choice.proxy] else []
  | _ => []

inductive IsAid : Job → Prop
  | opening (plan : SessionPlan) : IsAid (.opening plan)
  | triggering (session : Option Nat) (group : String) (limit : Nat) (call : Option Call) :
    IsAid (.triggering session group limit call)
  | batch (probes : ProbeBatch) : IsAid (.batch probes)
  | collecting (plan : SessionPlan) (missing deadline : Nat) (inbox : List (String × Int)) :
    IsAid (.collecting plan missing deadline inbox)

inductive IsErrand : Job → Prop
  | aid {job : Job} : job.IsAid → IsErrand job
  | start (r : Request) : IsErrand (.start r)

inductive Hires (next : Nat) : Job → Job → Prop
  | test {choice : Choice} {call : Call} {plan : SessionPlan} : next ≤ plan.session →
    Hires next (.choosing choice call) (.opening plan)
  | pull {choice : Choice} {call : Call} (group : String) (limit : Nat) :
    Hires next (.choosing choice call) (.triggering none group limit none)
  | trigger {plan : SessionPlan} (group : String) (limit : Nat) :
    Hires next (.opening plan) (.triggering plan.session group limit none)
  | probe {plan : SessionPlan} {b : ProbeBatch} : b.session = plan.session →
    Hires next (.opening plan) (.batch b)
  | report {b : ProbeBatch} {plan : SessionPlan} {missing deadline : Nat}
    {inbox : List (String × Int)} : plan.session = b.session →
    Hires next (.batch b) (.collecting plan missing deadline inbox)

theorem Hires.isAid {next : Nat} {job hired : Job} (h : job.Hires next hired) : hired.IsAid := by
  cases h with
  | test => exact .opening _
  | pull group limit | trigger group limit => exact .triggering _ group limit none
  | probe => exact .batch _
  | report => exact .collecting _ _ _ _

end Job

theorem Job.ordinary_of_plan {job : Job} (h : job.plan?.isSome = true) :
    job.isCoordinating = false ∧ job.choices = [] := by
  cases job with
  | opening plan | ticking plan p | polling plan p query | collecting plan missing deadline inbox =>
    exact ⟨rfl, rfl⟩
  | _ => cases h

def SessionMove.queries : Engine.SessionMove → List Query
  | .wait job => job.queries
  | _ => []

def RequestMove.queries : RequestMove → List Query
  | .wait job => job.queries
  | .done _ => []

inductive Told (K : Job → Prop) (t : Task) : Task → Prop
  | abort (isAborted : Bool) : Told K t { t with isAborted }
  | report {plan : SessionPlan} {missing deadline : Nat} {inbox : List (String × Int)}
    (inbox' : List (String × Int)) : t.job = .collecting plan missing deadline inbox →
    K (.collecting plan missing deadline inbox') →
    Told K t { t with job := .collecting plan missing deadline inbox' }
  | coordinate {c : Coordinator} (c' : Coordinator) : t.job = .coordinating c →
    K (.coordinating c') → Told K t { t with job := .coordinating c' }

theorem Told.refl (K : Job → Prop) (t : Task) : Told K t t :=
  .abort t.isAborted

theorem Told.mono {K L : Job → Prop} {t t' : Task} (hKL : ∀ job, K job → L job) (h : Told K t t') :
    Told L t t' := by
  cases h with
  | abort isAborted => exact .abort isAborted
  | report inbox hj hk => exact .report inbox hj (hKL _ hk)
  | coordinate c hj hc => exact .coordinate c hj (hKL _ hc)

namespace Engine

variable {σ : Type} {K L : Job → Prop} {hand hand' : List Query} {e e' e'' : Engine σ}

inductive Turnover (K : Job → Prop) (e : Engine σ) : Engine σ → Prop
  | same {e' : Engine σ} : e'.tasks = e.tasks → e'.nextTask = e.nextTask → Turnover K e e'
  | spawn {job : Job} : K job → Turnover K e (e.spawn job)
  | tell {f : Task → Task} : (∀ t, Told K t (f t)) → Turnover K e { e with tasks := e.tasks.map f }

def Staffs (K : Job → Prop) : Engine σ → Engine σ → Prop :=
  Relation.ReflTransGen (Turnover K)

/-- From some queries in hand to others, where permits that were right for all queries stay so. -/
structure Tends (K : Job → Prop) (e : Engine σ) (hand : List Query) (e' : Engine σ)
    (hand' : List Query) : Prop where
  staffs : Staffs K e e'
  serves : ∀ total rest, e.permits.Serves total (hand ++ rest) →
    e'.permits.Serves total (hand' ++ rest)

theorem Tends.refl (K : Job → Prop) (e : Engine σ) (hand : List Query) : Tends K e hand e hand :=
  ⟨.refl, fun _ _ h => h⟩

theorem Tends.trans {hand'' : List Query} (h : Tends K e hand e' hand')
    (h' : Tends K e' hand' e'' hand'') : Tends K e hand e'' hand'' :=
  ⟨h.staffs.trans h'.staffs, fun total rest hs => h'.serves total rest (h.serves total rest hs)⟩

theorem Tends.perm {hand₁ hand₂ : List Query} (h : Tends K e hand e' hand')
    (hp : hand.Perm hand₁) (hp' : hand'.Perm hand₂) : Tends K e hand₁ e' hand₂ :=
  ⟨h.staffs, fun total rest hs =>
    (h.serves total rest (hs.perm (hp.append_right rest))).perm (hp'.symm.append_right rest)⟩

theorem tends_of_append (h : Tends K e (hand ++ []) e' (hand' ++ [])) : Tends K e hand e' hand' :=
  h.perm (by rw [List.append_nil]) (by rw [List.append_nil])

theorem tends_same (hp : e'.permits = e.permits) (ht : e'.tasks = e.tasks)
    (hn : e'.nextTask = e.nextTask) : Tends K e hand e' hand :=
  ⟨.single (.same ht hn), fun _ _ hs => hp ▸ hs⟩

theorem Quiet.tends (hq : Quiet e e') (hp : e'.permits = e.permits) : Tends K e hand e' hand :=
  tends_same hp hq.tasks hq.nextTask

theorem measure_tends (e : Engine σ) (m : Measurement) : Tends K e hand (e.measure m) hand :=
  tends_same rfl rfl rfl

theorem write_tends (e : Engine σ) (act : Registry → Registry × Bool) :
    Tends K e hand (e.write act) hand :=
  tends_same rfl rfl rfl

theorem spawn_tends (e : Engine σ) {job : Job} (h : K job) : Tends K e hand (e.spawn job) hand :=
  ⟨.single (.spawn h), fun _ _ hs => hs⟩

theorem tell_tends (e : Engine σ) {f : Task → Task} (h : ∀ t, Told K t (f t)) :
    Tends K e hand { e with tasks := e.tasks.map f } hand :=
  ⟨.single (.tell h), fun _ _ hs => hs⟩

theorem learn_tends (e : Engine σ) (proxy : String) (delay : Int) :
    Tends K e hand (e.learn proxy delay) hand := by
  refine (learn_quiet e proxy delay).tends ?_
  unfold learn Measurement.ofDelay?
  cases isKnownDelay delay <;> rfl

theorem foldl_learn_tends (delays : List (String × Int)) (e : Engine σ) :
    Tends K e hand (delays.foldl (fun e (proxy, delay) => e.learn proxy delay) e) hand := by
  induction delays generalizing e with
  | nil => exact .refl K e hand
  | cons d rest ih => exact (learn_tends e d.1 d.2).trans (ih _)

theorem note_tends {α : Type} (operation : Operation) (answer : Answer α) (e : Engine σ) :
    Tends K e hand (note operation answer e) hand := by
  refine (note_quiet operation answer e).tends ?_
  cases answer <;> rfl

theorem hear_permits {α : Type} (call : Call) (answer : σ → σ × Option (Answer α))
    (e : Engine σ) : (e.hear call answer).1.permits = e.permits := by
  unfold hear
  split
  · split <;> rfl
  · rfl

theorem hear_tends {α : Type} {call : Call} {answer : σ → σ × Option (Answer α)}
    {x : Call ⊕ Answer α} (h : e.hear call answer = (e', x)) : Tends K e hand e' hand := by
  have ht : Tends K e hand (e.hear call answer).1 hand :=
    (hear_quiet call answer e).tends (hear_permits call answer e)
  rwa [h] at ht

theorem heard_tends {α : Type} {call : Call} {answer : σ → σ × Option (Answer α)}
    {a : Answer α} (operation : Operation) (h : e.hear call answer = (e', .inr a)) :
    Tends K e hand (note operation a e') hand :=
  (hear_tends h).trans (note_tends operation a e')

theorem query_tends (C : Core σ) (group : String) (sort : SortMode) (limit : Nat) (e : Engine σ) :
    Tends K e hand (e.query C group sort limit).1 ((e.query C group sort limit).2 :: hand) := by
  have hq := query_quiet C group sort limit e
  refine ⟨.single (.same hq.tasks hq.nextTask), fun total rest h => ?_⟩
  unfold query
  rcases ha : e.permits.acquire with ⟨permits, _ | ticket⟩
  · have hf := h.acquire_none (congrArg Prod.snd ha)
    rw [ha] at hf
    exact (Permits.serves_calling rfl).mpr hf
  · have hw := h.acquire_some (congrArg Prod.snd ha)
    rw [ha] at hw
    exact (Permits.serves_waiting rfl).mpr hw

theorem advanceQuery_tends (C : Core σ) (q : Query) (e : Engine σ) :
    Tends K e (q :: hand) (e.advanceQuery C q).1
      ((e.advanceQuery C q).2.getLeft?.toList ++ hand) := by
  have hq := advanceQuery_quiet C q e
  refine ⟨.single (.same hq.tasks hq.nextTask), fun total rest h => ?_⟩
  unfold advanceQuery
  cases hs : q.stage with
  | inl ticket =>
    have hw := (Permits.serves_waiting hs).mp h
    dsimp only
    split
    · next hg => exact (Permits.serves_calling rfl).mpr (hw.claim (List.contains_iff_mem.mp hg))
    · exact h
  | inr call =>
    have hc := (Permits.serves_calling hs).mp h
    have hp := hear_permits call (C.report q.group q.sort) e
    dsimp only
    split
    · next he =>
      rw [he] at hp
      exact (Permits.serves_calling rfl).mpr (hp ▸ hc)
    · next answer he =>
      rw [he] at hp
      have hr := hc.release
      rw [← hp] at hr
      cases answer <;> exact hr

theorem dropQuery_tends (q : Query) (e : Engine σ) :
    Tends K e (q :: hand) (e.dropQuery q) hand := by
  refine ⟨.single (.same rfl rfl), fun total rest h => ?_⟩
  unfold dropQuery
  cases hs : q.stage with
  | inl ticket => exact ((Permits.serves_waiting hs).mp h).abandon
  | inr call => exact ((Permits.serves_calling hs).mp h).release

theorem abandonJob_tends (e : Engine σ) {job : Job} (h : job.plan?.isSome = true) :
    Tends K e (job.queries ++ hand) (e.abandonJob job) hand := by
  cases job with
  | opening plan | ticking plan p | collecting plan missing deadline inbox => exact .refl K e hand
  | polling plan p query => exact dropQuery_tends query e
  | _ => cases h

theorem cancel_tends (e : Engine σ) (session : Nat) : Tends K e hand (e.cancel session) hand := by
  refine tell_tends e fun t => ?_
  split
  · exact .abort true
  · exact .refl K t

theorem openSession_tends (e : Engine σ) (index session : Nat) (g : Group)
    (hK : ∀ plan : SessionPlan, plan.session = session → K (.opening plan)) :
    Tends K e hand (e.openSession index session g) hand :=
  ((tends_same rfl rfl rfl).trans (spawn_tends _ (hK _ rfl))).trans (tends_same rfl rfl rfl)

theorem requestTest_tends (e : Engine σ) (index : Nat)
    (hK : ∀ plan : SessionPlan, e.nextSession ≤ plan.session → K (.opening plan)) :
    Tends K e hand (e.requestTest index).1 hand := by
  have hnew : ∀ plan : SessionPlan, plan.session = e.nextSession → K (.opening plan) :=
    fun plan hp => hK plan (Nat.le_of_eq hp.symm)
  unfold requestTest
  split
  · exact .refl _ e hand
  · split
    · exact .refl _ e hand
    · dsimp only
      have hc : Tends K e hand { e with nextSession := e.nextSession + 1 } hand :=
        tends_same rfl rfl rfl
      split
      · exact hc.trans (openSession_tends _ index _ _ hnew)
      · next running _ =>
        split
        · exact hc
        · exact ((hc.trans (cancel_tends _ running.id)).trans (measure_tends _ _)).trans
            (openSession_tends _ index _ _ hnew)

theorem requestBackgroundTest_tends (e : Engine σ) (index : Nat)
    (hK : ∀ plan : SessionPlan, e.nextSession ≤ plan.session → K (.opening plan)) :
    Tends K e hand (e.requestBackgroundTest index).1 hand := by
  unfold requestBackgroundTest
  dsimp only
  split
  · exact .refl _ e hand
  · exact requestTest_tends e index hK

theorem finishSession_tends (e : Engine σ) (plan : SessionPlan) (outcome : SessionOutcome) :
    Tends K e hand (e.finishSession plan outcome) hand := by
  rcases finishSession_cases e plan outcome with he | ⟨s, _, _, he⟩ <;> rw [he]
  · exact .refl K e hand
  · exact tends_same rfl rfl rfl

theorem stopSession_tends (e : Engine σ) (index : Nat) (outcome : SessionOutcome) :
    Tends K e hand (e.stopSession index outcome).1 hand := by
  unfold stopSession
  split
  · exact .refl K e hand
  · next s _ => exact (cancel_tends e s.id).trans (tends_same rfl rfl rfl)

theorem stopSessions_tends (indices : List Nat) (outcome : SessionOutcome) (e : Engine σ) :
    Tends K e hand (e.stopSessions indices outcome).1 hand := by
  rw [stopSessions_fst]
  induction indices generalizing e with
  | nil => exact .refl K e hand
  | cons i rest ih => exact (stopSession_tends e i outcome).trans (ih _)

section

variable {next : Nat}

theorem openPolling_tends (e : Engine σ) (plan : SessionPlan)
    (hK : ∀ hired, (Job.opening plan).Hires next hired → K hired) :
    Tends K e hand (e.openPolling plan).1
      (SessionMove.queries (e.openPolling plan).2 ++ hand) := by
  have hs : Tends K e hand
      (e.spawn (.triggering plan.session plan.group plan.budget.maxWait none)) hand :=
    spawn_tends e (hK _ (.trigger _ _))
  unfold openPolling
  dsimp only
  split
  · exact hs
  · split <;> exact hs

theorem openProbes_tends (e : Engine σ) (plan : SessionPlan)
    (hK : ∀ hired, (Job.opening plan).Hires next hired → K hired) :
    Tends K e hand (e.openProbes plan).1
      (SessionMove.queries (e.openProbes plan).2 ++ hand) := by
  unfold openProbes
  split
  · exact .refl _ e hand
  · exact spawn_tends e (hK _ (.probe rfl))

end

theorem applyPoll_tends (e : Engine σ) (plan : SessionPlan) (report : GroupReport) :
    Tends K e hand (e.applyPoll plan report) hand := by
  have hl : Tends K e hand _ hand := foldl_learn_tends (DelayTable.ofMembers report.members).toList e
  unfold applyPoll
  dsimp only
  split
  · exact hl.trans (tends_same rfl rfl rfl)
  · exact hl.trans (tends_same rfl rfl rfl)

theorem afterPoll_queries (e : Engine σ) (plan : SessionPlan) (p : Polling)
    (found : Option DelayTable) : SessionMove.queries (e.afterPoll plan p found) = [] := by
  unfold afterPoll
  dsimp only
  split
  · rfl
  · split <;> rfl

theorem tick_tends (C : Core σ) (e : Engine σ) (plan : SessionPlan) (p : Polling) :
    Tends K e hand (e.tick C plan p).1 (SessionMove.queries (e.tick C plan p).2 ++ hand) := by
  unfold tick
  split
  · exact query_tends C _ _ _ e
  · split <;> exact .refl K e hand

theorem poll_tends (C : Core σ) (e : Engine σ) (plan : SessionPlan) (p : Polling) (query : Query) :
    Tends K e (query :: hand) (e.poll C plan p query).1
      (SessionMove.queries (e.poll C plan p query).2 ++ hand) := by
  have ha : Tends K e (query :: hand) _ _ := advanceQuery_tends C query e
  unfold poll
  split
  · next he => rw [he] at ha; exact ha
  · next he =>
    rw [he] at ha
    rw [afterPoll_queries]
    exact ha
  · next report he =>
    rw [he] at ha
    rw [afterPoll_queries]
    exact ha.trans (applyPoll_tends _ plan report)

theorem collect_tends (e : Engine σ) (plan : SessionPlan) (missing deadline : Nat)
    (inbox : List (String × Int)) :
    Tends K e hand (e.collect plan missing deadline inbox).1
      (SessionMove.queries (e.collect plan missing deadline inbox).2 ++ hand) := by
  unfold collect
  split
  · dsimp only
    split <;> exact tends_same rfl rfl rfl
  · dsimp only
    split
    · exact .refl K e hand
    · split <;> exact .refl K e hand

theorem stepSession_tends (C : Core σ) (e : Engine σ) {job : Job} {plan : SessionPlan}
    (h : job.plan? = some plan) {next : Nat} (hK : ∀ hired, job.Hires next hired → K hired) :
    Tends K e (job.queries ++ hand) (e.stepSession C job).1
      (SessionMove.queries (e.stepSession C job).2 ++ hand) := by
  cases job with
  | opening p =>
    unfold stepSession
    dsimp only
    split
    · exact openPolling_tends e p hK
    · exact openProbes_tends e p hK
  | ticking p polling => exact tick_tends C e p polling
  | polling p polling query => exact poll_tends C e p polling query
  | collecting p missing deadline inbox => exact collect_tends e p missing deadline inbox
  | _ => cases h

theorem afterSession_tends {x : Engine σ × SessionMove} (plan : SessionPlan)
    (h : Tends K e hand x.1 (SessionMove.queries x.2 ++ hand')) :
    Tends K e hand (afterSession plan x).1 ((afterSession plan x).2.elim [] Job.queries ++ hand') := by
  obtain ⟨e', move⟩ := x
  cases move with
  | wait job => exact h
  | stop outcome => exact h.trans (finishSession_tends e' plan outcome)
  | breakOff => exact h

section

variable (C : Core σ) (e : Engine σ)

theorem startLoad_tends (index : Nat) :
    Tends K e hand (startLoad C e index).1
      ((startLoad C e index).2.query?.toList ++ hand) := by
  unfold startLoad
  split
  · exact .refl K e hand
  · exact query_tends C _ _ _ e

theorem startLoads_tends (indices : List Nat) :
    Tends K e hand (startLoads C e indices).1
      ((startLoads C e indices).2.filterMap Load.query? ++ hand) := by
  induction indices generalizing e hand with
  | nil => exact .refl K e hand
  | cons i rest ih =>
    refine ((startLoad_tends C e i).trans (ih (startLoad C e i).1)).perm (.refl _) ?_
    show List.Perm _ ((startLoad C e i).2 ::
      (startLoads C (startLoad C e i).1 rest).2 |>.filterMap Load.query? |>.append hand)
    cases (startLoad C e i).2 with
    | done ok => exact .refl _
    | asking index query => exact List.perm_middle

theorem fillDelays_tends (members : List Proxy) :
    Tends K e hand (e.fillDelays members).1 hand := by
  induction members generalizing e with
  | nil => exact .refl K e hand
  | cons p rest ih =>
    have hp : Tends K e hand (e.fillDelay p).1 hand := by
      unfold fillDelay
      split
      · exact .refl K e hand
      · exact tends_same rfl rfl rfl
    exact hp.trans (ih _)

theorem stepLoad_tends (index : Nat) (query : Query) :
    Tends K e (query :: hand) (stepLoad C e index query).1
      ((stepLoad C e index query).2.query?.toList ++ hand) := by
  have ha : Tends K e (query :: hand) _ _ := advanceQuery_tends C query e
  unfold stepLoad
  split
  · next he => rw [he] at ha; exact ha
  · next he => rw [he] at ha; exact ha
  · next report he =>
    rw [he] at ha
    exact (ha.trans (fillDelays_tends _ report.members)).trans (tends_same rfl rfl rfl)

theorem stepLoads_tends (loads : List Load) :
    Tends K e (loads.filterMap Load.query? ++ hand) (stepLoads C e loads).1
      ((stepLoads C e loads).2.filterMap Load.query? ++ hand) := by
  have h := stepLoads_turn C e loads
  generalize stepLoads C e loads = x at h
  cases h with
  | none => exact .refl K e _
  | one before after index query =>
    -- the query of the load that goes on comes first, then those of all others
    have hfirst (load : Load) : ((before ++ load :: after).filterMap Load.query? ++ hand).Perm
        (load.query?.toList ++ ((before ++ after).filterMap Load.query? ++ hand)) := by
      have hmiddle : (before ++ load :: after).Perm (load :: (before ++ after)) := List.perm_middle
      have hperm := hmiddle.filterMap Load.query?
      rw [List.filterMap_cons] at hperm
      refine (hperm.append_right hand).trans ?_
      cases load <;> exact .refl _
    exact (stepLoad_tends C e index query).perm (hfirst (.asking index query)).symm (hfirst _).symm

end

structure Attends (K : Job → Prop) (e : Engine σ) (hand : List Query) (x : Engine σ × RequestMove)
    (rest : List Query) (count : Nat) : Prop where
  tends : Tends K e hand x.1 (RequestMove.queries x.2 ++ rest)
  next : ∀ job, x.2 = .wait job → job.isCoordinating = false ∧ job.choices.length ≤ count ∧
    job.owner? = none

variable {rest : List Query} {count : Nat}

theorem Attends.after {x : Engine σ × RequestMove} (h : Tends K e hand e' hand')
    (hx : Attends K e' hand' x rest count) : Attends K e hand x rest count :=
  ⟨h.trans hx.tends, hx.next⟩

theorem attends_done (h : Tends K e hand e' rest) (result : Result) :
    Attends K e hand (e', .done result) rest count :=
  ⟨h, fun _ h => nomatch h⟩

theorem attends_wait {job : Job} (h : Tends K e hand e' (job.queries ++ rest))
    (hc : job.isCoordinating = false) (hn : job.choices.length ≤ count) (ho : job.owner? = none) :
    Attends K e hand (e', .wait job) rest count :=
  ⟨h, fun _ h => by cases h; exact ⟨hc, hn, ho⟩⟩

section

variable (C : Core σ) (e : Engine σ)

theorem call_attends (operation : Operation) (limit : Option Nat) {job : Call → Job}
    (hq : ∀ call, (job call).queries = []) (hc : ∀ call, (job call).isCoordinating = false)
    (hn : ∀ call, (job call).choices.length ≤ count) (ho : ∀ call, (job call).owner? = none) :
    Attends K e hand ((e.call C operation limit).1, .wait (job (e.call C operation limit).2))
      hand count := by
  refine attends_wait ?_ (hc _) (hn _) (ho _)
  rw [hq]
  exact tends_same rfl rfl rfl

theorem queries_of_done {loads : List Load} (h : loads.all Load.isDone = true) :
    loads.filterMap Load.query? = [] := by
  refine List.filterMap_eq_nil_iff.mpr fun load hl => ?_
  have hd := List.all_eq_true.mp h load hl
  cases load with
  | done ok => rfl
  | asking index query => cases hd

theorem loadMove_attends {e e' : Engine σ} {loads : List Load} (goal : LoadGoal)
    (h : Tends K e hand e' (loads.filterMap Load.query? ++ rest)) :
    Attends K e hand (e', loadMove goal loads) rest count := by
  unfold loadMove
  split
  · next hd =>
    rw [queries_of_done hd] at h
    exact attends_done h _
  · exact attends_wait h rfl (Nat.zero_le _) rfl

theorem load_attends (goal : LoadGoal) (indices : List Nat) :
    Attends K e hand (load C e goal indices) hand count :=
  loadMove_attends goal (startLoads_tends C e indices)

theorem applyNames_tends (names : List String) : Tends K e hand (e.applyNames names).1 hand := by
  by_cases h : e.registry.names = names
  · rw [applyNames_of_eq e h]
    exact .refl K e hand
  · rw [applyNames_of_ne e h]
    exact (stopSessions_tends e.sessions.keys .stopped e).trans (tends_same rfl rfl rfl)

theorem askNames_attends (attempt : Option Attempt) :
    Attends K e hand (askNames C e attempt) hand count :=
  call_attends C e (.names _) (some _) (fun _ => rfl) (fun _ => rfl) (fun _ => Nat.zero_le _)
    fun _ => rfl

theorem retry_attends (attempt : Attempt) : Attends K e hand (retry C e attempt) hand count := by
  unfold retry
  split
  · exact attends_wait (tends_same rfl rfl rfl) rfl (Nat.zero_le _) rfl
  · exact attends_done (.refl _ e hand) _

theorem takeNames_attends (attempt : Option Attempt) (answer : Answer (List String)) :
    Attends K e hand (takeNames C e attempt answer) hand count := by
  unfold takeNames
  split
  · exact retry_attends C e _
  · exact retry_attends C e _
  · exact .after (applyNames_tends e _) (load_attends C _ _ _)
  · exact attends_done (.refl _ e hand) _
  · next names =>
    have hn : Tends K e hand _ hand := applyNames_tends e names
    dsimp only
    split
    · exact .after hn (load_attends C _ _ _)
    · exact attends_done hn _

theorem startChoice_attends (index : Nat) (proxy : String) :
    Attends K e hand (startChoice C e index proxy) hand 1 := by
  unfold startChoice
  split
  · exact attends_done (.refl _ e hand) _
  · refine call_attends C e (.choose _ proxy) (some _) (fun _ => rfl) (fun _ => rfl)
      (fun _ => ?_) fun _ => rfl
    unfold Job.choices
    dsimp only
    split
    · exact Nat.le_refl _
    · exact Nat.zero_le _

theorem testInBackground_tends (group : String)
    (hK : ∀ plan : SessionPlan, e.nextSession ≤ plan.session → K (.opening plan))
    (hN : ∀ group limit, K (.triggering none group limit none)) :
    Tends K e hand (e.testInBackground group) hand := by
  unfold testInBackground
  split
  · exact requestBackgroundTest_tends e _ hK
  · exact spawn_tends e (hN _ _)

theorem takeChoice_attends (choice : Choice) (answer : Answer Bool)
    (hK : ∀ plan : SessionPlan, e.nextSession ≤ plan.session → K (.opening plan))
    (hN : ∀ group limit, K (.triggering none group limit none)) :
    Attends K e hand (e.takeChoice choice answer) hand count := by
  unfold takeChoice
  split
  · exact attends_done (.refl _ e hand) _
  · exact attends_done (.refl _ e hand) _
  · have hw : Tends K e hand _ hand :=
      write_tends e (·.setSelection choice.index choice.group choice.proxy)
    dsimp only
    split
    · exact attends_done (hw.trans (testInBackground_tends _ _ hK hN)) _
    · exact attends_done hw _

theorem startWalk_attends (current : Bool) (trail : Trail) (limit : Nat) :
    Attends K e hand (startWalk C e current trail limit) hand count :=
  call_attends C e (.report trail.here .listed) (some limit) (fun _ => rfl) (fun _ => rfl)
    (fun _ => Nat.zero_le _) fun _ => rfl

theorem takeStep_attends (current : Bool) (trail : Trail) (limit : Nat)
    (answer : Answer GroupReport) :
    Attends K e hand (takeStep C e current trail limit answer) hand count := by
  unfold takeStep
  split
  · exact attends_done (.refl _ e hand) _
  · exact attends_done (.refl _ e hand) _
  · exact startWalk_attends C e current _ limit

theorem startRequest_attends (r : Request) :
    Attends K e hand (startRequest C e r) hand (Job.start r).choices.length := by
  cases r with
  | prefetch => exact askNames_attends C e _
  | reload index => exact load_attends C e .one [index]
  | reloadAll => exact load_attends C e .all _
  | refresh => exact askNames_attends C e none
  | select index proxy => exact startChoice_attends C e index proxy
  | setMode mode =>
    exact call_attends C e (.setMode mode) (some _) (fun _ => rfl) (fun _ => rfl)
      (fun _ => Nat.zero_le _) fun _ => rfl
  | resolve group => exact startWalk_attends C e false _ _
  | current =>
    unfold startRequest
    dsimp only
    split
    · exact attends_done (.refl _ e hand) _
    · exact startWalk_attends C e true _ _
  | probe proxy =>
    exact call_attends C e (.probe proxy) none (fun _ => rfl) (fun _ => rfl)
      (fun _ => Nat.zero_le _) fun _ => rfl
  | mode =>
    exact call_attends C e .mode none (fun _ => rfl) (fun _ => rfl) (fun _ => Nat.zero_le _)
      fun _ => rfl

theorem stepRequest_attends {job : Job} (ho : job.owner? = none) (hc : job.isCoordinating = false)
    (hK : ∀ hired, job.Hires e.nextSession hired → K hired) :
    Attends K e (job.queries ++ hand) (stepRequest C e job) hand job.choices.length := by
  cases job with
  | start r => exact startRequest_attends C e r
  | loading goal loads => exact loadMove_attends goal (stepLoads_tends C e loads)
  | naming attempt selectableOnly call =>
    unfold stepRequest
    dsimp only
    split
    · next he => exact attends_wait (hear_tends he) rfl (Nat.zero_le _) rfl
    · next answer he => exact .after (heard_tends _ he) (takeNames_attends C _ attempt answer)
  | pausing attempt due =>
    unfold stepRequest
    dsimp only
    split
    · exact askNames_attends C e _
    · exact attends_wait (.refl _ e _) rfl (Nat.zero_le _) rfl
  | choosing choice call =>
    unfold stepRequest
    dsimp only
    split
    · next he => exact attends_wait (hear_tends he) rfl (Nat.le_refl _) rfl
    · next e' answer he =>
      have hq : (e.hear call (C.choose choice.group choice.proxy)).1.nextSession = e.nextSession :=
        (hear_quiet call _ e).nextSession
      rw [he] at hq
      have hn : (note (.choose choice.group choice.proxy) answer e').nextSession = e.nextSession :=
        (note_quiet _ answer e').nextSession.trans hq
      exact .after (heard_tends _ he) (takeChoice_attends _ choice answer
        (fun plan hp => hK _ (.test (hn ▸ hp))) fun group limit => hK _ (.pull group limit))
  | settingMode mode call =>
    unfold stepRequest
    dsimp only
    split
    · next he => exact attends_wait (hear_tends he) rfl (Nat.zero_le _) rfl
    · next answer he => exact attends_done (heard_tends _ he) _
  | walking current trail limit call =>
    unfold stepRequest
    dsimp only
    split
    · next he => exact attends_wait (hear_tends he) rfl (Nat.zero_le _) rfl
    · next answer he =>
      exact .after (heard_tends _ he) (takeStep_attends C _ current trail limit answer)
  | probing proxy call =>
    unfold stepRequest
    dsimp only
    split
    · next he => exact attends_wait (hear_tends he) rfl (Nat.zero_le _) rfl
    · next he => exact attends_done (hear_tends he) _
  | readingMode call =>
    unfold stepRequest
    dsimp only
    split
    · next he => exact attends_wait (hear_tends he) rfl (Nat.zero_le _) rfl
    · next he => exact attends_done (hear_tends he) _
  | triggering session group limit call =>
    cases ho
    exact attends_wait (.refl _ e _) rfl (Nat.zero_le _) rfl
  | batch probes => cases ho
  | opening plan | ticking plan p | polling plan p query | collecting plan missing deadline inbox =>
    cases ho
  | coordinating c => cases hc

theorem afterRequest_tends {e : Engine σ} {x : Engine σ × RequestMove} (id : Nat)
    (h : Attends K e hand x rest count) :
    Tends K e hand (afterRequest id x).1
      ((afterRequest id x).2.elim [] Job.queries ++ rest) := by
  obtain ⟨e', move⟩ := x
  cases move with
  | wait job => exact h.tends
  | done result => exact h.tends.trans (tends_same rfl rfl rfl)

theorem report_tends (session : Nat) (proxy : String) (delay : Int)
    (hK : ∀ (plan : SessionPlan) (missing deadline : Nat) (inbox : List (String × Int)),
      plan.session = session → K (.collecting plan missing deadline inbox)) :
    Tends K e hand (e.report session proxy delay) hand := by
  refine tell_tends e fun t => ?_
  split
  · next hj =>
    split
    · next hs => exact .report _ hj (hK _ _ _ _ hs)
    · exact .refl K t
  · exact .refl K t

theorem endedProbe_tends (running : List (String × Call)) :
    Tends K e hand (endedProbe C e running).1 hand := by
  induction running generalizing e with
  | nil => exact .refl K e hand
  | cons probe rest ih =>
    obtain ⟨proxy, call⟩ := probe
    unfold endedProbe
    split
    · next he => exact hear_tends he
    · next he => exact (hear_tends he).trans (ih _)

section

variable {next : Nat} (b : ProbeBatch) (hK : ∀ hired, (Job.batch b).Hires next hired → K hired)
include hK

theorem settle_tends : Tends K e hand (stepBatch.settle C b e).1 hand := by
  have hp : Tends K e hand _ hand := endedProbe_tends C e b.running
  unfold stepBatch.settle
  split
  · next he => rw [he] at hp; exact hp
  · next proxy answer running he =>
    rw [he] at hp
    exact ((hp.trans (note_tends (.probe proxy) answer _)).trans (learn_tends _ proxy _)).trans
      (report_tends _ _ _ _ fun _ _ _ _ hs => hK _ (.report hs))

theorem stepBatch_tends : Tends K e hand (stepBatch C e b).1 hand := by
  unfold stepBatch
  split
  · split
    · exact tends_same rfl rfl rfl
    · exact settle_tends C e b hK
  · exact settle_tends C e b hK

end

theorem settle_session (b : ProbeBatch) {next : ProbeBatch}
    (h : (stepBatch.settle C b e).2 = some next) : next.session = b.session := by
  unfold stepBatch.settle at h
  split at h
  · cases h
    rfl
  · dsimp only at h
    split at h
    · cases h
    · cases h
      rfl

theorem stepBatch_session {b next : ProbeBatch} (h : (stepBatch C e b).2 = some next) :
    next.session = b.session := by
  unfold stepBatch at h
  split at h
  · split at h
    · cases h
      rfl
    · exact settle_session C e b h
  · exact settle_session C e b h

theorem stepTrigger_tends (group : String) (limit : Nat) (call : Option Call) :
    Tends K e hand (stepTrigger C e group limit call).1 hand := by
  unfold stepTrigger
  split
  · exact tends_same rfl rfl rfl
  · split
    · next he => exact hear_tends he
    · next answer he => exact heard_tends _ he

section

variable (hK : ∀ plan : SessionPlan, e.nextSession ≤ plan.session → K (.opening plan))
  (hR : ∀ r, K (.start r))
include hK hR

theorem dispatch_tends (intent : Intent) : Tends K e hand (e.dispatch intent) hand := by
  cases intent with
  | reloadAll => exact spawn_tends e (hR _)
  | reload index => exact spawn_tends e (hR _)
  | select index proxy => exact spawn_tends e (hR _)
  | test index => exact requestTest_tends e index hK
  | setMode mode => exact spawn_tends e (hR _)
  | stop index => exact stopSession_tends e index _
  | stopAll => exact stopSessions_tends _ _ e
  | refresh => exact spawn_tends e (hR _)
  | sortByDelay on => exact tends_same rfl rfl rfl

theorem takeBranch_tends (c : Coordinator) (branch : Coordinator.Branch) :
    Tends K e hand (e.takeBranch c branch).1 hand := by
  cases branch with
  | intent =>
    unfold takeBranch
    dsimp only
    split
    · exact dispatch_tends e hK hR _
    · exact stopSessions_tends _ _ e
  | tick => exact (stopSessions_tends _ _ e).trans (tends_same rfl rfl rfl)
  | update =>
    unfold takeBranch
    dsimp only
    split
    · exact tends_same rfl rfl rfl
    · exact .refl _ e hand
  | stop => exact stopSessions_tends _ _ e

theorem stepCoordinator_tends (c : Coordinator) :
    Tends K e hand (e.stepCoordinator c).1 hand := by
  unfold stepCoordinator
  split
  · exact takeBranch_tends e hK hR c _
  · exact .refl _ e hand

end

theorem stepJob_tends (id : Nat) {job : Job} (h : job.isCoordinating = false)
    (hK : ∀ hired, job.Hires e.nextSession hired → K hired) :
    Tends K e (job.queries ++ hand) (stepJob C e id job).1
      ((stepJob C e id job).2.elim [] Job.queries ++ hand) := by
  cases hp : job.plan? with
  | some plan =>
    rw [stepJob_session C e id hp]
    exact afterSession_tends plan (stepSession_tends C e hp hK)
  | none =>
    cases job with
    | opening | ticking | polling | collecting => cases hp
    | coordinating c => cases h
    | batch b =>
      have hq : (stepJob C e id (.batch b)).2.elim [] Job.queries = [] := by
        show ((stepBatch C e b).2.map Job.batch).elim [] Job.queries = []
        cases (stepBatch C e b).2 <;> rfl
      rw [hq]
      exact stepBatch_tends C e b hK
    | triggering session group limit call =>
      have hq : (stepJob C e id (.triggering session group limit call)).2.elim [] Job.queries =
          [] := by
        show ((stepTrigger C e group limit call).2.map fun call =>
          Job.triggering session group limit (some call)).elim [] Job.queries = []
        cases (stepTrigger C e group limit call).2 <;> rfl
      rw [hq]
      exact stepTrigger_tends C e group limit call
    | _ => exact afterRequest_tends id (stepRequest_attends C e rfl h hK)

theorem stepJob_next (id : Nat) {job next : Job} (h : job.isCoordinating = false)
    (hn : next ∈ (stepJob C e id job).2) :
    next.isCoordinating = false ∧ next.choices.length ≤ job.choices.length ∧
      next.owner? = job.owner? := by
  cases hp : job.plan? with
  | some plan =>
    have hplan : next.plan? = some plan := by
      rw [stepJob_session C e id hp] at hn
      rcases hs : stepSession C e job with ⟨e', move⟩
      rw [hs] at hn
      cases move with
      | wait job' => exact stepSession_plan hp (by rw [hs]; exact congrArg _ (Option.some.inj hn))
      | stop outcome => cases hn
      | breakOff => cases hn
    have hsome : next.plan?.isSome = true := by
      rw [hplan]
      rfl
    obtain ⟨hc, hl⟩ := Job.ordinary_of_plan hsome
    rw [hl, owner_of_plan hplan, owner_of_plan hp]
    exact ⟨hc, Nat.zero_le _, rfl⟩
  | none =>
    cases job with
    | opening | ticking | polling | collecting => cases hp
    | coordinating c => cases h
    | batch b =>
      obtain ⟨x, hx, rfl⟩ := Option.map_eq_some_iff.mp hn
      exact ⟨rfl, Nat.zero_le _, congrArg some (stepBatch_session C e hx)⟩
    | triggering session group limit call =>
      obtain ⟨x, hx, rfl⟩ := Option.map_eq_some_iff.mp hn
      exact ⟨rfl, Nat.zero_le _, rfl⟩
    | _ =>
      have ha : Attends (fun _ => True) e (_ ++ []) _ _ _ :=
        stepRequest_attends C e rfl h fun _ _ => trivial
      exact ha.next next (afterRequest_wait hn)

end

end Engine

end ProxyPulse
