import ProxyPulse.Proofs.Engine.Polling
import ProxyPulse.Proofs.Engine.Results
import ProxyPulse.Proofs.Registry.Delays

namespace ProxyPulse.Engine

variable {σ : Type} {C : Core σ} {e e' : Engine σ} {plan : SessionPlan} {proxy : String}
  {delay : Int}

theorem learn_apart (proxy : String) :
    WritesApart (fun (e : Engine σ) entry => e.learn entry.1 entry.2) (·.cache[proxy]?) proxy := by
  intro e entry hne
  show (e.learn entry.1 entry.2).cache[proxy]? = e.cache[proxy]?
  rw [learn_cache, DelayCache.record]
  split
  · simp [Std.ExtTreeMap.getElem?_insert, hne]
  · rfl

theorem foldl_learn_cache {delays : List (String × Int)} (e : Engine σ)
    (hd : (delays.map Prod.fst).Nodup) (h : (proxy, delay) ∈ delays) (hk : 0 < delay) :
    (delays.foldl (fun e (proxy, delay) => e.learn proxy delay) e).cache[proxy]? =
      some ⟨delay, e.now⟩ := by
  obtain ⟨before, _, hlast⟩ := (learn_apart proxy).of_mem e hd h
  refine hlast.trans ?_
  rw [learn_cache, DelayCache.record, isKnownDelay, if_pos (decide_eq_true hk),
    (foldl_learn_quiet before e).now]
  exact Std.ExtTreeMap.getElem?_insert_self

theorem applyPoll_cache (e : Engine σ) (plan : SessionPlan) (report : GroupReport)
    (h : (DelayTable.ofMembers report.members)[proxy]? = some delay) (hk : 0 < delay) :
    (e.applyPoll plan report).cache[proxy]? = some ⟨delay, e.now⟩ := by
  have hlearn := foldl_learn_cache e (delays_nodup (DelayTable.ofMembers report.members))
    (Std.ExtTreeMap.mem_toList_iff_getElem?_eq_some.mpr h) hk
  unfold applyPoll
  dsimp only
  split
  · exact hlearn
  · exact hlearn

theorem write_board (e : Engine σ) (w : Registry.Write)
    (h : e.registry.names[w.index]? = some w.name) :
    (e.write w.apply).board = (w.act e.board).1 ∧
      (e.write w.apply).registry.names = e.registry.names := by
  have hh : e.registry.holds w.index w.name = true := by simp [Registry.holds, h]
  refine ⟨?_, Registry.Write.names_apply _ w⟩
  show (w.apply e.registry).1.board = _
  rw [Registry.Write.apply_of_holds hh]
  rfl

theorem applyPoll_content (e : Engine σ) (plan : SessionPlan) (report : GroupReport) {x : Record}
    (hn : e.registry.names[plan.index]? = some plan.group)
    (hx : e.board.records[plan.index]? = some x) :
    ∃ (g : Group) (links : LinkTable),
      (e.applyPoll plan report).board.content plan.index = some (g, links) ∧
        g.name = x.group.name ∧ ∀ name : String, links[name]? = x.links[name]?.map fun l =>
          { l with delay := (DelayTable.ofMembers report.members)[name]?.getD l.delay } := by
  unfold applyPoll
  dsimp only
  have hq := foldl_learn_quiet (DelayTable.ofMembers report.members).toList e
  generalize (DelayTable.ofMembers report.members).toList.foldl
    (fun e (proxy, delay) => e.learn proxy delay) e = e₁ at hq
  rw [← hq.registry] at hn
  rw [← hq.board] at hx
  obtain ⟨hboard, hnames⟩ :=
    write_board e₁ (.updateDelays plan.index plan.group (.ofMembers report.members)) hn
  obtain ⟨g, links, hcontent, hname, hlinks⟩ :=
    Board.updateDelays_content hx (DelayTable.ofMembers report.members)
  have hcontent : (e₁.write (·.updateDelays plan.index plan.group
      (.ofMembers report.members))).board.content plan.index = some (g, links) :=
    (congrArg (Board.content · plan.index) hboard).trans hcontent
  split
  · exact ⟨g, links, hcontent, hname, hlinks⟩
  · next now _ =>
    obtain ⟨active, hactive⟩ := Board.setSelection_content _ plan.index now hcontent
    obtain ⟨hboard', _⟩ := write_board _ (.setSelection plan.index plan.group now) (hnames ▸ hn)
    exact ⟨_, links, (congrArg (Board.content · plan.index) hboard').trans hactive, hname, hlinks⟩

theorem afterSession_shown (plan : SessionPlan) (x : Engine σ × SessionMove) :
    (∀ i, (afterSession plan x).1.board.content i = x.1.board.content i) ∧
      (afterSession plan x).1.cache = x.1.cache := by
  obtain ⟨e, move⟩ := x
  cases move with
  | wait job => exact ⟨fun _ => rfl, rfl⟩
  | breakOff => exact ⟨fun _ => rfl, rfl⟩
  | stop outcome =>
    rcases finishSession_cases e plan outcome with he | ⟨s, _, _, he⟩
    · rw [afterSession, he]
      exact ⟨fun _ => rfl, rfl⟩
    · rw [afterSession, he]
      exact ⟨Registry.setTesting_content _ plan.index s.group false, rfl⟩

theorem resume_shown (C : Core σ) {t : Task} (ha : t.isAborted = false)
    (hp : t.job.plan? = some plan) :
    (∀ i, (resume C e t).board.content i =
      (stepSession C (e.without t) t.job).1.board.content i) ∧
      (resume C e t).cache = (stepSession C (e.without t) t.job).1.cache := by
  have hafter := afterSession_shown plan (stepSession C (e.without t) t.job)
  rw [resume_lives C e ha, stepJob_session C _ _ hp]
  cases (afterSession plan (stepSession C (e.without t) t.job)).2 <;> exact hafter

theorem SessionMove.not_polled {move : SessionMove} {found : Option DelayTable}
    {triggering : Bool} : .polled found triggering ∉ move.deeds := by
  cases move with
  | wait job => exact nofun
  | stop outcome | breakOff => exact fun hm => nomatch List.mem_singleton.mp hm

theorem polled_turn {watch : Option Job} (hcrew : PollCrew plan watch e) (hc : Coherent e)
    {a : Action σ} (ha : e.Allows a) {delays : DelayTable} {triggering : Bool}
    (h : .polled (some delays) triggering ∈ e.deeds C plan.session a) :
    ∃ (t : Task) (p : Polling) (query : Query) (e₁ : Engine σ) (report : GroupReport),
      a = .resume t ∧ t.isAborted = false ∧ t.job = .polling plan p query ∧
        (e.without t).advanceQuery C query = (e₁, .inr (.ok report)) ∧
        delays = .ofMembers report.members := by
  obtain ⟨t, rfl, ho, hpolls⟩ := hcrew.deeds_turn hc ha h
  cases hab : t.isAborted with
  | true =>
    rw [deeds_aborted ho hab] at h
    cases List.mem_singleton.mp h
  | false =>
    rw [deeds_own ho hab] at h
    generalize hj : t.job = job at hpolls h
    cases hpolls with
    | opening =>
      unfold jobDeeds at h
      dsimp only at h
      split at h
      · cases List.mem_singleton.mp h
      · rcases List.mem_cons.mp h with h | h
        · cases h
        · exact absurd h SessionMove.not_polled
    | ticking p =>
      rcases List.mem_append.mp h with h | h
      · split at h
        · cases List.mem_singleton.mp h
        · cases h
      · exact absurd h SessionMove.not_polled
    | polling p query =>
      rcases List.mem_append.mp h with h | h
      · rcases hq : (e.without t).advanceQuery C query with ⟨e₁, query' | answer⟩
        · rw [hq] at h
          cases h
        · rw [hq] at h
          obtain ⟨hfound, _⟩ := Deed.polled.inj (List.mem_singleton.mp h)
          cases answer with
          | error error => cases hfound
          | ok report => exact ⟨t, p, query, e₁, report, rfl, hab, hj, hq, Option.some.inj hfound⟩
      · exact absurd h SessionMove.not_polled

theorem watched_record (hc : Coherent e) {t : Task} (ht : t ∈ e.tasks) (ha : t.isAborted = false)
    (hp : t.job.plan? = some plan) : e.registry.names[plan.index]? = some plan.group ∧
      ∃ x, e.board.records[plan.index]? = some x ∧ x.group.name = plan.group := by
  obtain ⟨s, hs, _, hgroup⟩ := hc.watched plan
    (List.mem_filterMap.mpr ⟨t, ht, by rw [Task.plan?, ha]; exact hp⟩)
  obtain ⟨x, hx, hxn, _⟩ := hc.tested hs
  exact ⟨hgroup ▸ hc.named plan.index s hs, x, hx, hxn.trans hgroup⟩

theorem polled_shown (he : Reachable C e) {watch : Option Job} (hcrew : PollCrew plan watch e)
    {a : Action σ} (ha : e.Allows a) {delays : DelayTable} {triggering : Bool}
    (h : .polled (some delays) triggering ∈ e.deeds C plan.session a) :
    (∀ (proxy : String) (delay : Int), delays[proxy]? = some delay → 0 < delay →
      (e.perform C a).cache[proxy]? = some ⟨delay, e.now⟩) ∧
    ∃ x : Record, (e.perform C a).board.records[plan.index]? = some x ∧ x.group.name = plan.group ∧
      ∀ p ∈ x.group.members, ∀ delay, delays[p.name]? = some delay →
        x.links[p.name]? = some ⟨p.name, delay⟩ ∧
          (DistinctNames x.group.members → p.delay = delay) := by
  have hc := he.coherent
  obtain ⟨t, p, query, e₁, report, rfl, hab, hj, hquery, rfl⟩ := polled_turn hcrew hc ha h
  have hplan : t.job.plan? = some plan := by rw [hj]; rfl
  obtain ⟨hcontent, hcache⟩ := resume_shown (e := e) C hab hplan
  have hstep : (stepSession C (e.without t) t.job).1 = e₁.applyPoll plan report := by
    rw [hj]
    show (poll C (e.without t) plan p query).1 = _
    rw [poll, hquery]
  rw [hstep] at hcontent hcache
  have hq : Quiet (e.without t) e₁ := by
    have hq := advanceQuery_quiet C query (e.without t)
    rwa [hquery] at hq
  refine ⟨fun proxy delay hd hk => ?_, ?_⟩
  · rw [perform, hcache, applyPoll_cache e₁ plan report hd hk, hq.now]
    rfl
  · obtain ⟨hname, x, hx, hxn⟩ := watched_record hc ha hab hplan
    have hname : e₁.registry.names[plan.index]? = some plan.group := by
      rw [hq.registry]
      exact hname
    have hx : e₁.board.records[plan.index]? = some x := by
      rw [hq.board]
      exact hx
    obtain ⟨g, links, hshown, hgn, hlinks⟩ := applyPoll_content e₁ plan report hname hx
    obtain ⟨x', hx', heq⟩ := Option.map_eq_some_iff.mp ((hcontent plan.index).trans hshown)
    obtain ⟨hg, hl⟩ := Prod.mk.inj heq
    have hpaired := (he.reaches (reaches_perform C ha)).registry.paired plan.index x' hx'
    refine ⟨x', hx', ?_, fun p hp delay hd => ?_⟩
    · rw [hg, hgn, hxn]
    · exact hpaired.tells hp (by rw [hl, hlinks, hd]; rfl)

end ProxyPulse.Engine
