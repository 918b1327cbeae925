import SentioCore.ProgressModel

/-!
# Which blocks the checkpoint goroutine still waits for

Blocks below `p` are handled, blocks from `p` to `a` have their start message
received and wait in the map, and the start messages of later blocks are still
queued. The count of a waiting block is the number of its tasks whose report
was not received yet, wherever those tasks are.
-/

namespace Sentio.ProgressInvariant
open ProgressModel List Option Transition Function
open Option (some.inj some.injEq)

section
variable {δ : Type}

def owes : Producer δ → ℕ → ℕ
  | .dispatching bn remaining, b => if bn = b then remaining else 0
  | _, _ => 0

def isFinished : Producer δ → Bool
  | .finished => true
  | _ => false

def isStarting : Producer δ → Bool
  | .starting _ => true
  | _ => false

def isReleasing : Loop → Bool
  | .releasing _ => true
  | _ => false

def isDoneOf (b : ℕ) : ProgressMessage δ → Bool
  | .blockTaskDone bn => bn = b
  | _ => false

def isAllDone : ProgressMessage δ → Bool
  | .blockAllDone _ => true
  | _ => false

def startOf : ProgressMessage δ → Option (BlockPanel δ)
  | .blockStart panel => some panel
  | _ => none

def starts (queue : List (ProgressMessage δ)) : List (BlockPanel δ) := queue.filterMap startOf

/-- Tasks of block `b` whose report the checkpoint goroutine has not received. -/
def unreported (s : State δ) (b : ℕ) : ℕ :=
  owes s.producer b+s.executing.count b+s.reporting.count b+s.progressNotice.countP (isDoneOf b)

def total (first : ℕ) (announced : List (BlockPanel δ)) (b : ℕ) : ℕ :=
  if b < first then 0 else ((announced[b-first]?).map (fun p => p.taskCount.toNat)).getD 0

def endEntry : Bool → Option (Option (BlockPanel δ))
  | true => some none
  | false => none

def Ordered (a : ℕ) : List (ProgressMessage δ) → Prop
  | [] => True
  | .blockStart panel::rest => panel.blockNumber = a ∧ Ordered (a+1) rest
  | .blockTaskDone b::rest => b < a ∧ Ordered a rest
  | .blockAllDone n::rest => n = a ∧ starts rest = [] ∧ rest.any isAllDone = false ∧ Ordered a rest

def LoopAt (p a : ℕ) (u : ℕ → ℕ) (waiting : ℕ → Option (Option (BlockPanel δ))) : Loop → Prop
  | .receiving => (p = a → waiting a = none) ∧ (p < a → 0 < u p)
  | .scanning bn => bn = p
  | .releasing bn => bn+1 = p
  | .closed => p = a ∧ waiting a = some none
  | .faulted => False

structure Ledger (first p a : ℕ) (u : ℕ → ℕ) (announced : List (BlockPanel δ))
    (waiting : ℕ → Option (Option (BlockPanel δ))) (loop : Loop) : Prop where
  handled : ∀ b < p, u b = 0
  pending : ∀ b, a ≤ b → u b = total first announced b
  panels : ∀ b, p ≤ b → b < a → ∃ panel, announced[b-first]? = some panel ∧
    waiting b = some (some {panel with taskCount := u b})
  loop : LoopAt p a u waiting loop

structure Inv (first : ℕ) (s : State δ) (p a : ℕ) : Prop where
  first_le : first ≤ p
  le : p ≤ a
  received : a+(starts s.progressNotice).length = s.nextBlock
  length : first+s.announced.length = s.nextBlock
  numbered : ∀ i panel, s.announced[i]? = some panel →
    panel.blockNumber = first+i ∧ 0 ≤ panel.taskCount
  sent : starts s.progressNotice = s.announced.drop (a-first)
  ordered : Ordered a s.progressNotice
  starting : ∀ panel, s.producer = .starting panel →
    panel.blockNumber = s.nextBlock ∧ 0 ≤ panel.taskCount
  work : ∀ b, s.finished.count b+owes s.producer b+s.executing.count b = total first s.announced b
  ledger : Ledger first p a (unreported s) s.announced s.waiting s.loop
  absent : ∀ b, b < p ∨ a ≤ b → b ≠ s.nextBlock → s.waiting b = none
  ended : s.progressNotice.any isAllDone → isFinished s.producer
  final : s.waiting s.nextBlock =
    endEntry (isFinished s.producer && !s.progressNotice.any isAllDone)
  slots : s.waitingBlocks =
    s.nextBlock-p+(isStarting s.producer).toNat+(isReleasing s.loop).toNat
  made : s.checkpoints = checkpointCalls (s.announced.take (p-first))

theorem init_inv (first : ℕ) : Inv first (init first : State δ) first first where
  first_le := le_refl _
  le := le_refl _
  received := rfl
  length := rfl
  numbered := by simp [init]
  sent := by simp [init,starts]
  ordered := trivial
  starting := by simp [init]
  work := by simp [init,owes,total]
  ledger := ⟨by simp [init,unreported,owes],by simp [init,unreported,owes,total],
    by intro b h1 h2; omega,by simp [init,LoopAt]⟩
  absent := by simp [init]
  ended := by simp [init]
  final := rfl
  slots := by simp [init,isStarting,isReleasing]
  made := by simp [init,checkpointCalls]

variable {m : ProgressMessage δ} {rest : List (ProgressMessage δ)}

theorem starts_cons : starts (m::rest) = (startOf m).toList++starts rest := by
  cases h : startOf m <;> simp [starts,h]

theorem starts_append (queue : List (ProgressMessage δ)) :
    starts (queue++[m]) = starts queue++(startOf m).toList := by
  cases h : startOf m <;> simp [starts,h]

theorem ordered_append (a : ℕ) {queue : List (ProgressMessage δ)}
    (hq : Ordered a queue) (hm : Ordered (a+(starts queue).length) [m])
    (hd : queue.any isAllDone → startOf m = none ∧ isAllDone m = false) :
    Ordered a (queue++[m]) := by
  induction queue generalizing a with
  | nil => simpa [starts] using hm
  | cons k rest ih =>
    cases k with
    | blockStart panel =>
      have hl : a+(starts (.blockStart panel::rest)).length = a+1+(starts rest).length := by
        simp [starts,startOf]
        omega
      rw [hl] at hm
      exact ⟨hq.1,ih (a+1) hq.2 hm (fun h => hd (by simp [h]))⟩
    | blockTaskDone b =>
      exact ⟨hq.1,ih a hq.2 hm (fun h => hd (by simp [h]))⟩
    | blockAllDone n =>
      obtain ⟨h1,h2,h3,h4⟩ := hq
      obtain ⟨d1,d2⟩ := hd (by simp [isAllDone])
      refine ⟨h1,?_,?_,ih a h4 hm (fun _ => ⟨d1,d2⟩)⟩
      · rw [append_eq,starts_append,h2,d1]
        rfl
      · simp [h3,d2]

variable {b : ℕ} {panel : BlockPanel δ} {first : ℕ}

theorem total_append {announced : List (BlockPanel δ)} : total first (announced++[panel]) b =
      total first announced b+(if first+announced.length = b then panel.taskCount.toNat else 0) := by
  unfold total
  by_cases hb : b < first
  · simp [hb,show first+announced.length ≠ b by omega]
  by_cases hl : b-first < announced.length
  · simp [getElem?_append_left hl,show first+announced.length ≠ b by omega]
  by_cases he : first+announced.length = b
  · simp [← he]
  · rw [getElem?_eq_none (by simp; omega)]
    simp [he,show announced.length ≤ b-first by omega]

variable {announced : List (BlockPanel δ)}

theorem total_beyond (h : first+announced.length ≤ b) : total first announced b = 0 := by
  simp [total,show announced.length ≤ b-first by omega]

theorem total_panel (hb : first ≤ b) (h : announced[b-first]? = some panel) :
    total first announced b = panel.taskCount.toNat := by
  simp [total,show ¬b < first by omega,h]

variable {a : ℕ} {s : State δ} {p : ℕ}

theorem unreported_bound (b : ℕ) (hi : Inv first s p a)
    (h : 0 < unreported s b) : p ≤ b ∧ b < s.nextBlock := by
  have hr := hi.received
  constructor
  · by_contra hp
    have := hi.ledger.handled b (by omega)
    omega
  by_contra hn
  have := hi.ledger.pending b (by omega)
  rw [total_beyond (by have := hi.length; omega)] at this
  omega

theorem next_inv {blockData : Option (δ × ℕ)} (hp : s.producer = .fetching) (hi : Inv first s p a) :
    Inv first (acquired s (newPanel s.nextBlock blockData)) p a := by
  have hu : unreported (acquired s (newPanel s.nextBlock blockData)) = unreported s := by
    ext b
    simp [unreported,hp,owes]
  refine {hi with starting := ?_, work := ?_, ledger := ?_, ended := ?_, final := ?_, slots := ?_}
  · intro panel h
    cases h
    cases blockData <;> simp [newPanel]
  · intro b
    simpa [hp,owes] using hi.work b
  · rw [hu]
    exact hi.ledger
  · simpa [hp,isFinished] using hi.ended
  · simpa [hp,isFinished] using hi.final
  have := hi.slots
  simp only [hp,isStarting,Bool.toNat_false,Bool.toNat_true,acquired_producer,
    acquired_waitingBlocks,acquired_nextBlock,acquired_loop] at this ⊢
  omega

theorem unreported_started (hp : s.producer = .starting panel) :
    unreported (queued (started s panel) (.blockStart panel)) b =
      unreported s b+(if panel.blockNumber = b then panel.taskCount.toNat else 0) := by
  simp [unreported,hp,owes,isDoneOf]
  omega

theorem numbered_append
    (h : ∀ i q, announced[i]? = some q → q.blockNumber = first+i ∧ 0 ≤ q.taskCount)
    (hn : panel.blockNumber = first+announced.length) (ht : 0 ≤ panel.taskCount) :
    ∀ i q, (announced++[panel])[i]? = some q → q.blockNumber = first+i ∧ 0 ≤ q.taskCount := by
  intro i q hq
  by_cases hlt : i < announced.length
  · rw [getElem?_append_left hlt] at hq
    exact h i q hq
  rw [getElem?_append_right (by omega),getElem?_singleton] at hq
  split at hq
  · rw [← some.inj hq]
    exact ⟨by omega,ht⟩
  · cases hq

variable {v : ℕ → ℕ}

theorem started_ledger {next : ℕ} {u : ℕ → ℕ} {waiting : ℕ → Option (Option (BlockPanel δ))}
    {loop : Loop} (h : Ledger first p a u announced waiting loop)
    (hl : first+announced.length = next) (hf : first ≤ p) (hpa : p ≤ a) (ha : a ≤ next)
    (hv : ∀ b, v b = u b+(if next = b then panel.taskCount.toNat else 0)) :
    Ledger first p a v (announced++[panel]) waiting loop := by
  have hold : ∀ b < next, v b = u b := by
    intro b hb
    rw [hv,if_neg (by omega)]
    rfl
  constructor
  · intro b hb
    rw [hold b (by omega),h.handled b hb]
  · intro b hb
    rw [hv,h.pending b hb,total_append,hl]
  · intro b hb hba
    obtain ⟨q,h1,h2⟩ := h.panels b hb hba
    rw [hold b (by omega),getElem?_append_left (by omega)]
    exact ⟨q,h1,h2⟩
  cases loop with
  | receiving =>
    refine ⟨h.loop.1,fun hlt => ?_⟩
    rw [hold p (by omega)]
    exact h.loop.2 hlt
  | scanning | releasing | closed | faulted => exact h.loop

theorem start_inv
    (hp : s.producer = .starting panel) (hi : Inv first s p a) :
    Inv first (queued (started s panel) (.blockStart panel)) p a := by
  obtain ⟨hn,ht⟩ := hi.starting panel hp
  have hl := hi.length
  have hr := hi.received
  have hf := hi.first_le
  have hle := hi.le
  have hq : s.progressNotice.any isAllDone = false := by
    by_contra h
    have := hi.ended (by simpa using h)
    simp [hp,isFinished] at this
  have hw : s.waiting s.nextBlock = none := by
    rw [hi.final,hp]
    rfl
  constructor
  · exact hf
  · exact hle
  · simp [starts_append,startOf]
    omega
  · simp
    omega
  · exact numbered_append hi.numbered (by omega) ht
  · simp only [queued_progressNotice,started_progressNotice,queued_announced,started_announced]
    rw [starts_append,hi.sent,drop_append_of_le_length (by omega)]
    rfl
  · apply ordered_append a hi.ordered
    · exact ⟨by omega,trivial⟩
    intro h
    rw [hq] at h
    cases h
  · simp
  · intro b
    have := hi.work b
    rw [hp] at this
    simp only [queued_finished,started_finished,queued_producer,started_producer,
      queued_executing,started_executing,queued_announced,started_announced]
    rw [total_append,← this]
    simp only [owes,hn,hl]
    omega
  · exact started_ledger hi.ledger hl hf hle (by omega)
      (fun b => by rw [unreported_started hp,hn])
  · intro b hb hne
    by_cases he : b = s.nextBlock
    · rw [he]
      exact hw
    · exact hi.absent b hb he
  · simp [hq,isAllDone]
  · exact hi.absent (s.nextBlock+1) (.inr (by omega)) (by omega)
  · have := hi.slots
    simp only [hp,isStarting,Bool.toNat_false,Bool.toNat_true,queued_producer,
      queued_waitingBlocks,queued_nextBlock,queued_loop,started_producer,
      started_waitingBlocks,started_nextBlock,started_loop] at this ⊢
    omega
  · simp only [queued_checkpoints,started_checkpoints,queued_announced,started_announced]
    rw [hi.made,take_append_of_le_length (by omega)]

/-- Tasks move from the producer to a worker and from executing to reporting
without changing what the checkpoint goroutine is owed. -/
theorem moved_inv {producer : Producer δ}
    {executing reporting finished : List ℕ} (hi : Inv first s p a)
    (hs : ∀ panel, producer = .starting panel → s.producer = .starting panel)
    (hb : isStarting producer = isStarting s.producer)
    (hf : isFinished producer = isFinished s.producer)
    (hw : ∀ b, finished.count b+owes producer b+executing.count b =
      s.finished.count b+owes s.producer b+s.executing.count b)
    (hu : ∀ b, owes producer b+executing.count b+reporting.count b =
      owes s.producer b+s.executing.count b+s.reporting.count b) :
    Inv first {s with
      producer := producer
      executing := executing
      reporting := reporting
      finished := finished} p a := by
  have hun : unreported {s with
      producer := producer
      executing := executing
      reporting := reporting
      finished := finished} = unreported s := by
    ext b
    simp [unreported,hu]
  refine {hi with starting := ?_, work := ?_, ledger := ?_, ended := ?_, final := ?_, slots := ?_}
  · intro panel h
    exact hi.starting panel (hs panel h)
  · intro b
    exact (hw b).trans (hi.work b)
  · rw [hun]
    exact hi.ledger
  · simpa only [hf] using hi.ended
  · simpa only [hf] using hi.final
  · simpa only [hb] using hi.slots

variable {bn : ℕ}

theorem dispatch_inv {remaining : ℕ} (hp : s.producer = .dispatching bn (remaining+1))
    (hi : Inv first s p a) : Inv first (dispatched s bn remaining) p a := by
  apply moved_inv hi
  · simp
  · simp [hp,isStarting]
  · simp [hp,isFinished]
  · intro b
    by_cases hb : bn = b <;> simp [hp,owes,hb]
    omega
  intro b
  by_cases hb : bn = b <;> simp [hp,owes,hb]
  omega

theorem fetch_inv (hp : s.producer = .dispatching bn 0) (hi : Inv first s p a) :
    Inv first {s with producer := .fetching} p a := by
  apply moved_inv hi
  · simp
  · simp [hp,isStarting]
  · simp [hp,isFinished]
  · simp [hp,owes]
  · simp [hp,owes]

theorem count_erase_add {l : List ℕ} (h : bn ∈ l) :
    l.count b = (l.erase bn).count b+(if bn = b then 1 else 0) := by
  by_cases he : bn = b
  · subst he
    have := count_pos_iff.mpr h
    simp
    omega
  · simp [he,count_erase_of_ne (Ne.symm he)]

theorem complete_inv (hb : bn ∈ s.executing)
    (hi : Inv first s p a) : Inv first (completed s bn) p a := by
  apply moved_inv hi
  · exact fun panel h => h
  · rfl
  · rfl
  · intro b
    rw [count_erase_add hb,count_cons]
    simp only [beq_iff_eq]
    omega
  intro b
  rw [count_erase_add hb,count_cons]
  simp only [beq_iff_eq]
  omega

theorem report_inv (hb : bn ∈ s.reporting) (hi : Inv first s p a) :
    Inv first (queued {s with reporting := s.reporting.erase bn} (.blockTaskDone bn)) p a := by
  have hlt := (unreported_bound bn hi (by
    have := count_pos_iff.mpr hb
    simp only [unreported]
    omega)).2
  have hun : unreported (queued {s with reporting := s.reporting.erase bn} (.blockTaskDone bn)) =
      unreported s := by
    ext b
    simp only [unreported,queued_producer,queued_executing,queued_reporting,
      queued_progressNotice,countP_append,countP_singleton,isDoneOf,decide_eq_true_eq,
      count_erase_add hb]
    omega
  refine {hi with received := ?_, sent := ?_, ordered := ?_, ledger := ?_, ended := ?_, final := ?_}
  · simpa [starts_append,startOf] using hi.received
  · simpa [starts_append,startOf] using hi.sent
  · apply ordered_append a hi.ordered
    · exact ⟨by have := hi.received; omega,trivial⟩
    · exact fun _ => ⟨rfl,rfl⟩
  · rw [hun]
    exact hi.ledger
  · simpa [isAllDone] using hi.ended
  · simpa [isAllDone] using hi.final

theorem noMoreData_inv (hp : s.producer = .fetching) (hi : Inv first s p a) :
    Inv first (queued {s with producer := .finished} (.blockAllDone s.nextBlock)) p a := by
  have hq : s.progressNotice.any isAllDone = false := by
    by_contra h
    have := hi.ended (by simpa using h)
    simp [hp,isFinished] at this
  have hun : unreported (queued {s with producer := .finished} (.blockAllDone s.nextBlock)) =
      unreported s := by
    ext b
    simp [unreported,hp,owes,isDoneOf]
  refine {hi with
    received := ?_, sent := ?_, ordered := ?_, starting := ?_, work := ?_, ledger := ?_,
    ended := ?_, final := ?_, slots := ?_}
  · simpa [starts_append,startOf] using hi.received
  · simpa [starts_append,startOf] using hi.sent
  · apply ordered_append a hi.ordered
    · exact ⟨hi.received.symm,rfl,rfl,trivial⟩
    intro h
    rw [hq] at h
    cases h
  · simp
  · simpa [hp,owes] using hi.work
  · rw [hun]
    exact hi.ledger
  · intro _
    rfl
  · have := hi.final
    simpa [hp,isFinished,isAllDone] using this
  · simpa [hp,isStarting] using hi.slots

variable {entry : Option (BlockPanel δ)}

theorem afterReceive_update (hi : Inv first s p a) (h1 : p ≤ bn) (h2 : bn ≤ a) :
    afterReceive (update s.waiting bn (some entry)) bn =
      if p < bn then .receiving else .scanning bn := by
  have hr := hi.received
  by_cases hlt : p < bn
  · obtain ⟨panel,hw⟩ := hi.ledger.panels (bn-1) (by omega) (by omega)
    simp [afterReceive,hlt,show 0 < bn by omega,update_of_ne (show bn-1 ≠ bn by omega),hw,isPanel]
  by_cases hz : 0 < bn
  · have hw := hi.absent (bn-1) (.inl (by omega)) (by omega)
    simp [afterReceive,hlt,update_of_ne (show bn-1 ≠ bn by omega),hw,isPanel]
  · simp [afterReceive,show bn = 0 by omega]

theorem sent_head
    {rest : List (BlockPanel δ)} (hf : first ≤ a) (h : panel::rest = announced.drop (a-first)) :
    announced[a-first]? = some panel ∧ rest = announced.drop (a+1-first) := by
  constructor
  · have := congrArg List.head? h
    rw [head?_drop] at this
    exact this.symm
  have := congrArg List.tail h
  rw [tail_drop] at this
  rw [show a+1-first = a-first+1 by omega]
  exact this

theorem place_slots
    (hl : s.loop = .receiving) (hi : Inv first s p a) (h1 : p ≤ bn) (h2 : bn ≤ a) :
    (place {s with progressNotice := rest} bn entry).waitingBlocks = s.nextBlock-p+
      (isStarting s.producer).toNat+
      (isReleasing (place {s with progressNotice := rest} bn entry).loop).toNat := by
  have hrel : isReleasing (afterReceive (update s.waiting bn (some entry)) bn) =
      isReleasing s.loop := by
    rw [afterReceive_update hi h1 h2,hl]
    split <;> rfl
  simpa only [place,hrel] using hi.slots

theorem place_loop {a' : ℕ} (s : State δ) (hl : s.loop = .receiving) (hi : Inv first s p a)
    (h1 : p ≤ bn) (h2 : bn ≤ a) (ha : a ≤ a') (hv : p < bn → v p = unreported s p) :
    LoopAt p a' v (update s.waiting bn (some entry))
      (afterReceive (update s.waiting bn (some entry)) bn) := by
  rw [afterReceive_update hi h1 h2]
  by_cases hlt : p < bn
  · have h := hi.ledger.loop
    rw [hl] at h
    rw [if_pos hlt]
    refine ⟨fun he => by omega,fun _ => ?_⟩
    rw [hv hlt]
    exact h.2 (by omega)
  · rw [if_neg hlt]
    show bn = p
    omega

theorem receive_start_inv (hl : s.loop = .receiving)
    (hq : s.progressNotice = .blockStart panel::rest) (hi : Inv first s p a) :
    Inv first (place {s with progressNotice := rest} panel.blockNumber (some panel)) p (a+1) := by
  have hf := hi.first_le
  have hle := hi.le
  have hr := hi.received
  have ho := hi.ordered
  have hs := hi.sent
  rw [hq] at hr ho hs
  obtain ⟨hn,ho⟩ := ho
  simp only [starts,filterMap_cons,startOf,length_cons] at hr hs
  obtain ⟨hs1,hs2⟩ := sent_head (by omega) hs
  have hun : unreported (place {s with progressNotice := rest} a (some panel)) = unreported s := by
    ext b
    simp [place,unreported,hq,isDoneOf]
  have hpa : {panel with taskCount := (unreported s a : ℤ)} = panel := by
    have := (hi.numbered _ _ hs1).2
    rw [hi.ledger.pending a le_rfl,total_panel (by omega) hs1,Int.toNat_of_nonneg this]
  have hany : s.progressNotice.any isAllDone = rest.any isAllDone := by simp [hq,isAllDone]
  rw [hn]
  refine {hi with
    le := by omega, received := ?_, sent := hs2, ordered := ho, ledger := ?_,
    absent := ?_, ended := ?_, final := ?_,
    slots := place_slots hl hi hle le_rfl}
  · simp only [place,starts]
    omega
  · rw [hun]
    constructor
    · exact hi.ledger.handled
    · intro b hb
      exact hi.ledger.pending b (by omega)
    · intro b hb hba
      by_cases he : b = a
      · subst he
        exact ⟨panel,hs1,(update_self _ _ _).trans (by rw [hpa])⟩
      · obtain ⟨q,h1,h2⟩ := hi.ledger.panels b hb (by omega)
        exact ⟨q,h1,(update_of_ne he _ _).trans h2⟩
    · exact place_loop s hl hi hle le_rfl (by omega) (fun _ => rfl)
  · intro b hb hne
    exact (update_of_ne (by omega) _ _).trans (hi.absent b (by omega) hne)
  · simpa only [place,hany] using hi.ended
  · have hna : s.nextBlock ≠ a := by omega
    simpa only [place,update_of_ne hna,hany] using hi.final

theorem receive_allDone_inv {n : ℕ} (hl : s.loop = .receiving)
    (hq : s.progressNotice = .blockAllDone n::rest) (hi : Inv first s p a) :
    Inv first (place {s with progressNotice := rest} n none) p a := by
  have hle := hi.le
  have hr := hi.received
  have ho := hi.ordered
  have hs := hi.sent
  rw [hq] at hr ho hs
  obtain ⟨hn,hst,had,ho⟩ := ho
  have hst' : starts (.blockAllDone n::rest) = starts rest := by simp [starts_cons,startOf]
  rw [hst'] at hr hs
  rw [hst] at hr
  simp only [length_nil,Nat.add_zero] at hr
  have hfin := hi.ended (by simp [hq,isAllDone])
  have hun : unreported (place {s with progressNotice := rest} a none) = unreported s := by
    ext b
    simp [place,unreported,hq,isDoneOf]
  rw [hn]
  refine {hi with
    received := ?_, sent := hs, ordered := ho, ledger := ?_, absent := ?_,
    ended := fun _ => hfin, final := ?_,
    slots := place_slots hl hi hle le_rfl}
  · show a+(starts rest).length = s.nextBlock
    rw [hst]
    exact hr
  · rw [hun]
    constructor
    · exact hi.ledger.handled
    · exact hi.ledger.pending
    · intro b hb hba
      obtain ⟨q,h1,h2⟩ := hi.ledger.panels b hb hba
      exact ⟨q,h1,(update_of_ne (by omega) _ _).trans h2⟩
    · exact place_loop s hl hi hle le_rfl le_rfl (fun _ => rfl)
  · intro b hb hne
    have hba : b ≠ a := by
      rw [hr]
      exact hne
    exact (update_of_ne hba _ _).trans (hi.absent b hb hne)
  · simp only [place,← hr,update_self,hfin,had]
    rfl

theorem done_waiting (hq : s.progressNotice = .blockTaskDone bn::rest) (hi : Inv first s p a) :
    p ≤ bn ∧ bn < a ∧ 0 < unreported s bn ∧ ∃ panel, s.announced[bn-first]? = some panel ∧
      s.waiting bn = some (some {panel with taskCount := unreported s bn}) := by
  have ho := hi.ordered
  rw [hq] at ho
  have hpos : 0 < unreported s bn := by
    simp [unreported,hq,isDoneOf]
  have hp := (unreported_bound bn hi hpos).1
  exact ⟨hp,ho.1,hpos,hi.ledger.panels bn hp ho.1⟩

theorem receive_taskDone_inv (hl : s.loop = .receiving)
    (hq : s.progressNotice = .blockTaskDone bn::rest) (hi : Inv first s p a) :
    Inv first (handle {s with progressNotice := rest} (.blockTaskDone bn)) p a := by
  obtain ⟨hp,hba,hpos,panel,han,hw⟩ := done_waiting hq hi
  have hr := hi.received
  have ho := hi.ordered
  have hs := hi.sent
  rw [hq] at ho
  have hst : starts s.progressNotice = starts rest := by simp [hq,starts_cons,startOf]
  have hany : s.progressNotice.any isAllDone = rest.any isAllDone := by simp [hq,isAllDone]
  have hh : handle {s with progressNotice := rest} (.blockTaskDone bn) =
      place {s with progressNotice := rest} bn
        (some {panel with taskCount := (unreported s bn : ℤ)-1}) := by
    simp [handle,hw]
  have hun : ∀ b, unreported (place {s with progressNotice := rest} bn
      (some {panel with taskCount := (unreported s bn : ℤ)-1})) b =
      unreported s b-(if bn = b then 1 else 0) := by
    simp only [place,unreported,hq,countP_cons,isDoneOf,decide_eq_true_eq]
    omega
  have hne : ∀ b, b ≠ bn → unreported (place {s with progressNotice := rest} bn
      (some {panel with taskCount := (unreported s bn : ℤ)-1})) b = unreported s b := by
    intro b hb
    rw [hun,if_neg (Ne.symm hb)]
    rfl
  rw [hh]
  refine {hi with
    received := ?_, sent := ?_, ordered := ho.2, ledger := ⟨?_,?_,?_,?_⟩, absent := ?_,
    ended := ?_, final := ?_,
    slots := place_slots hl hi hp (le_of_lt hba)}
  · rwa [hst] at hr
  · rwa [hst] at hs
  · intro b hb
    rw [hne b (by omega)]
    exact hi.ledger.handled b hb
  · intro b hb
    rw [hne b (by omega)]
    exact hi.ledger.pending b hb
  · intro b hb hlt
    by_cases he : b = bn
    · subst he
      refine ⟨panel,han,(update_self _ _ _).trans ?_⟩
      rw [hun,if_pos rfl,Nat.cast_sub hpos]
      rfl
    · obtain ⟨q,h1,h2⟩ := hi.ledger.panels b hb hlt
      rw [hne b he]
      exact ⟨q,h1,(update_of_ne he _ _).trans h2⟩
  · exact place_loop s hl hi hp (le_of_lt hba) le_rfl (fun hlt => hne p (by omega))
  · intro b hb hn
    exact (update_of_ne (by omega) _ _).trans (hi.absent b hb hn)
  · simpa only [place,hany] using hi.ended
  · have hnb : s.nextBlock ≠ bn := by omega
    simpa only [place,update_of_ne hnb,hany] using hi.final

theorem idle_inv (hl : s.loop = .scanning p)
    (h1 : p = a → s.waiting a = none) (h2 : p < a → 0 < unreported s p) (hi : Inv first s p a) :
    Inv first {s with loop := .receiving} p a := by
  refine {hi with ledger := ?_, slots := ?_}
  · exact ⟨hi.ledger.handled,hi.ledger.pending,hi.ledger.panels,h1,h2⟩
  · simpa [hl,isReleasing] using hi.slots

theorem take_announced
    (hf : first ≤ p) (hn : panel.blockNumber = p) (h : announced[p-first]? = some panel) :
    checkpointCalls (announced.take (p+1-first)) =
      checkpointCalls (announced.take (p-first))++
        (panel.dataSummary.map (fun d => (p,d))).toList := by
  rw [show p+1-first = p-first+1 by omega,take_add_one,h]
  cases hd : panel.dataSummary <;> simp [checkpointCalls,hd,hn]

theorem checkpointed_inv (hl : s.loop = .scanning p) (hpa : p < a)
    (hw : s.waiting p = some (some panel)) (ht : ¬panel.taskCount > 0) (hi : Inv first s p a) :
    Inv first (checkpointed s p panel) (p+1) a := by
  have hf := hi.first_le
  have hr := hi.received
  obtain ⟨q,hq,hqw⟩ := hi.ledger.panels p le_rfl hpa
  have hpanel : panel = {q with taskCount := (unreported s p : ℤ)} := by
    rw [hw] at hqw
    exact some.inj (some.inj hqw)
  have hz : unreported s p = 0 := by
    rw [hpanel] at ht
    dsimp only at ht
    omega
  have hn := (hi.numbered _ _ hq).1
  refine {hi with
    first_le := by omega, le := by omega, ledger := ⟨?_,?_,?_,?_⟩, absent := ?_, final := ?_,
    slots := ?_, made := ?_}
  · intro b hb
    by_cases he : b = p
    · rw [he]
      exact hz
    · exact hi.ledger.handled b (by omega)
  · exact hi.ledger.pending
  · intro b hb hba
    obtain ⟨k,h1,h2⟩ := hi.ledger.panels b (by omega) hba
    exact ⟨k,h1,(update_of_ne (by omega) _ _).trans h2⟩
  · rfl
  · intro b hb hne
    by_cases he : b = p
    · rw [he]
      exact update_self _ _ _
    · exact (update_of_ne he _ _).trans (hi.absent b (by omega) hne)
  · have hnp : s.nextBlock ≠ p := by omega
    exact (update_of_ne hnp _ _).trans hi.final
  · have := hi.slots
    simp only [hl,isReleasing,Bool.toNat_false,Bool.toNat_true,checkpointed_waitingBlocks,
      checkpointed_nextBlock,checkpointed_producer,checkpointed_loop] at this ⊢
    omega
  · simp only [checkpointed_checkpoints,checkpointed_announced]
    rw [take_announced hf (by omega) hq,hi.made,hpanel]

theorem scan_inv (hl : s.loop = .scanning bn)
    (hi : Inv first s p a) : ∃ p', Inv first (scanAt s bn) p' a := by
  have hbn : bn = p := by
    have := hi.ledger.loop
    rwa [hl] at this
  subst hbn
  have hle := hi.le
  rcases Nat.lt_or_ge bn a with hlt | hge
  · obtain ⟨q,-,hw⟩ := hi.ledger.panels bn le_rfl hlt
    by_cases ht : (unreported s bn : ℤ) > 0
    · refine ⟨bn,?_⟩
      simp only [scanAt,hw,ht]
      exact idle_inv hl (fun h => by omega) (fun _ => by omega) hi
    refine ⟨bn+1,?_⟩
    simp only [scanAt,hw,ht]
    exact checkpointed_inv hl hlt hw ht hi
  have hba : bn = a := by omega
  refine ⟨bn,?_⟩
  rcases hw : s.waiting bn with _ | entry
  · simp only [scanAt,hw]
    exact idle_inv hl (fun h => h ▸ hw) (fun h => by omega) hi
  have hnb : bn = s.nextBlock := by
    by_contra hne
    rw [hi.absent bn (.inr hge) hne] at hw
    cases hw
  have hnone : entry = none := by
    have := hi.final
    rw [← hnb,hw] at this
    cases hb : isFinished s.producer && !s.progressNotice.any isAllDone with
    | true => simpa [hb,endEntry] using this
    | false => simp [hb,endEntry] at this
  subst hnone
  simp only [scanAt,hw]
  refine {hi with ledger := ?_, slots := ?_}
  · exact ⟨hi.ledger.handled,hi.ledger.pending,hi.ledger.panels,hba,hba ▸ hw⟩
  · simpa [hl,isReleasing] using hi.slots

theorem release_inv (hl : s.loop = .releasing bn) (hi : Inv first s p a) :
    Inv first {s with waitingBlocks := s.waitingBlocks-1, loop := .scanning (bn+1)} p a := by
  have hbn : bn+1 = p := by
    have := hi.ledger.loop
    rwa [hl] at this
  refine {hi with ledger := ?_, slots := ?_}
  · exact ⟨hi.ledger.handled,hi.ledger.pending,hi.ledger.panels,hbn⟩
  have := hi.slots
  simp only [hl,isReleasing,Bool.toNat_false,Bool.toNat_true] at this ⊢
  omega

def Holds (first : ℕ) (s : State δ) : Prop := ∃ p a, Inv first s p a

variable {t : State δ}

theorem send_eq (h : send s m = some t) : t = queued s m := by
  simp only [send,ite_none_right_eq_some,some.injEq] at h
  exact h.2.symm

theorem step_holds {workers : ℕ} (s : State δ) {act : Action δ} {t : State δ}
    (hs : Holds first s) (h : step workers s act = some t) : Holds first t := by
  obtain ⟨p,a,hi⟩ := hs
  cases act with
  | next blockData =>
    simp only [step] at h
    split at h
    · rename_i hp
      simp only [ite_none_right_eq_some,some.injEq] at h
      exact ⟨p,a,h.2 ▸ next_inv hp hi⟩
    · cases h
  | start =>
    simp only [step] at h
    split at h
    · rename_i panel hp
      exact ⟨p,a,send_eq h ▸ start_inv hp hi⟩
    · cases h
  | dispatch =>
    simp only [step] at h
    split at h
    · rename_i bn hp
      exact ⟨p,a,some.inj h ▸ fetch_inv hp hi⟩
    · rename_i bn remaining hp
      simp only [ite_none_right_eq_some,some.injEq] at h
      exact ⟨p,a,h.2 ▸ dispatch_inv hp hi⟩
    · cases h
  | noMoreData =>
    simp only [step] at h
    split at h
    · rename_i hp
      exact ⟨p,a,send_eq h ▸ noMoreData_inv hp hi⟩
    · cases h
  | complete bn =>
    simp only [step,ite_none_right_eq_some,some.injEq] at h
    exact ⟨p,a,h.2 ▸ complete_inv h.1 hi⟩
  | report bn =>
    simp only [step,ite_none_right_eq_some] at h
    exact ⟨p,a,send_eq h.2 ▸ report_inv h.1 hi⟩
  | receive =>
    simp only [step] at h
    split at h
    · rename_i m rest hl hq
      rw [← some.inj h]
      cases m with
      | blockStart panel => exact ⟨p,a+1,receive_start_inv hl hq hi⟩
      | blockTaskDone bn => exact ⟨p,a,receive_taskDone_inv hl hq hi⟩
      | blockAllDone n => exact ⟨p,a,receive_allDone_inv hl hq hi⟩
    · cases h
  | scan =>
    simp only [step] at h
    split at h
    · rename_i bn hl
      obtain ⟨p',hp'⟩ := scan_inv hl hi
      exact ⟨p',a,some.inj h ▸ hp'⟩
    · cases h
  | release =>
    simp only [step] at h
    split at h
    · rename_i bn hl
      simp only [ite_none_right_eq_some,some.injEq] at h
      exact ⟨p,a,h.2 ▸ release_inv hl hi⟩
    · cases h

variable {workers : ℕ}

theorem run_holds {acts : List (Action δ)}
    (h : run (step workers) (init first) acts = some s) : Holds first s :=
  run_invariant (step workers) (Holds first) step_holds acts _ s
    ⟨first,first,init_inv first⟩ h

theorem announced_mem (hi : Inv first s p a) (hm : panel ∈ s.announced) :
    first ≤ panel.blockNumber ∧ panel.blockNumber < s.nextBlock ∧
      (total first s.announced panel.blockNumber : ℤ) = panel.taskCount := by
  obtain ⟨i,hi'⟩ := List.mem_iff_getElem?.mp hm
  obtain ⟨hn,ht⟩ := hi.numbered i panel hi'
  have hl := hi.length
  have hlt := (List.getElem?_eq_some_iff.mp hi').1
  rw [total_panel (by omega) (by rw [hn,Nat.add_sub_cancel_left]; exact hi')]
  exact ⟨by omega,by omega,Int.toNat_of_nonneg ht⟩

theorem finished_of_handled (hi : Inv first s p a)
    (hm : panel ∈ s.announced) (hz : unreported s panel.blockNumber = 0) :
    (s.finished.count panel.blockNumber : ℤ) = panel.taskCount := by
  have hw := hi.work panel.blockNumber
  have ht := (announced_mem hi hm).2.2
  simp only [unreported] at hz
  omega

theorem announced_ascending (hi : Inv first s p a) :
    s.announced.Pairwise (fun x y => x.blockNumber < y.blockNumber) := by
  rw [pairwise_iff_getElem]
  intro i j hi' hj hij
  have h1 := (hi.numbered i _ (getElem?_eq_getElem hi')).1
  have h2 := (hi.numbered j _ (getElem?_eq_getElem hj)).1
  omega

theorem calls_ascending {panels : List (BlockPanel δ)}
    (h : panels.Pairwise (fun x y => x.blockNumber < y.blockNumber)) :
    (checkpointCalls panels).Pairwise (fun x y => x.1 < y.1) := by
  apply List.Pairwise.filterMap _ _ h
  intro x y hxy c hc d hd
  simp only [map_eq_some_iff] at hc hd
  obtain ⟨_,_,rfl⟩ := hc
  obtain ⟨_,_,rfl⟩ := hd
  exact hxy

theorem handle_checkpoints : (handle s m).checkpoints = s.checkpoints := by
  cases m with
  | blockTaskDone bn =>
    simp only [handle]
    split <;> rfl
  | blockStart panel | blockAllDone n => rfl

variable {act : Action δ}

theorem step_checkpoints
    (h : step workers s act = some t) (hn : act ≠ .scan) : t.checkpoints = s.checkpoints := by
  cases act with
  | scan => exact absurd rfl hn
  | receive =>
    simp only [step] at h
    split at h
    · rw [← some.inj h,handle_checkpoints]
    · cases h
  | start | noMoreData =>
    simp only [step] at h
    split at h
    · rw [send_eq h]
      rfl
    · cases h
  | report bn =>
    simp only [step,ite_none_right_eq_some] at h
    rw [send_eq h.2]
    rfl
  | complete bn =>
    simp only [step,ite_none_right_eq_some,some.injEq] at h
    rw [← h.2]
    rfl
  | next blockData =>
    simp only [step] at h
    split at h
    · simp only [ite_none_right_eq_some,some.injEq] at h
      rw [← h.2]
      rfl
    · cases h
  | dispatch =>
    simp only [step] at h
    split at h
    · rw [← some.inj h]
    · simp only [ite_none_right_eq_some,some.injEq] at h
      rw [← h.2]
      rfl
    · cases h
  | release =>
    simp only [step] at h
    split at h
    · simp only [ite_none_right_eq_some,some.injEq] at h
      rw [← h.2]
    · cases h

variable {call : ℕ × δ}

theorem scanAt_call (hc : (scanAt s bn).checkpoints = s.checkpoints++[call]) :
    call.1 = bn ∧ ∃ panel, s.waiting bn = some (some panel) ∧ ¬panel.taskCount > 0 := by
  have hne : ∀ l : List (ℕ × δ), l ≠ l++[call] := by simp
  simp only [scanAt] at hc
  split at hc
  · exact absurd hc (hne _)
  · exact absurd hc (hne _)
  rename_i panel hw
  split at hc
  · exact absurd hc (hne _)
  rename_i ht
  have hd := append_cancel_left hc
  cases hs : panel.dataSummary with
  | none => simp [hs] at hd
  | some d =>
    simp only [hs,map_some,toList_some,List.cons.injEq,and_true] at hd
    rw [← hd]
    exact ⟨rfl,panel,hw,ht⟩

/-- Only the scan of the first waiting block calls `MakeCheckpoint`. -/
theorem call_scan (h : step workers s act = some t) (hc : t.checkpoints = s.checkpoints++[call]) :
    ∃ panel, s.loop = .scanning call.1 ∧ s.waiting call.1 = some (some panel) ∧
      ¬panel.taskCount > 0 := by
  by_cases hscan : act = .scan
  · subst hscan
    simp only [step] at h
    split at h
    · rename_i bn hl
      rw [← some.inj h] at hc
      obtain ⟨hbn,panel,hw,ht⟩ := scanAt_call hc
      subst hbn
      exact ⟨panel,hl,hw,ht⟩
    · cases h
  · rw [step_checkpoints h hscan] at hc
    exact absurd hc (by simp)

section
variable (hs : Holds first s)
include hs

theorem finished_before_call (h : step workers s act = some t)
    (hc : t.checkpoints = s.checkpoints++[call]) (hm : panel ∈ s.announced)
    (hb : panel.blockNumber ≤ call.1) :
    (s.finished.count panel.blockNumber : ℤ) = panel.taskCount := by
  obtain ⟨p,a,hi⟩ := hs
  obtain ⟨q,hl,hw,ht⟩ := call_scan h hc
  have hp : call.1 = p := by
    have := hi.ledger.loop
    rwa [hl] at this
  apply finished_of_handled hi hm
  by_cases hlt : panel.blockNumber < p
  · exact hi.ledger.handled _ hlt
  have he : panel.blockNumber = p := by omega
  have hnext := (announced_mem hi hm).2.1
  have hpa : p < a := by
    by_contra hge
    rw [hp,hi.absent p (.inr (by omega)) (by omega)] at hw
    cases hw
  obtain ⟨k,-,hk⟩ := hi.ledger.panels p le_rfl hpa
  rw [hp,hk] at hw
  rw [← some.inj (some.inj hw)] at ht
  dsimp only at ht
  rw [he]
  omega

theorem closed_complete (hl : s.loop = .closed) :
    isFinished s.producer ∧ s.checkpoints = checkpointCalls s.announced ∧
      (∀ panel ∈ s.announced, (s.finished.count panel.blockNumber : ℤ) = panel.taskCount) ∧
      ∀ b panel, s.waiting b ≠ some (some panel) := by
  obtain ⟨p,a,hi⟩ := hs
  have hlp := hi.ledger.loop
  rw [hl] at hlp
  obtain ⟨hpa,hw⟩ := hlp
  have hn : a = s.nextBlock := by
    by_contra hne
    rw [hi.absent a (.inr le_rfl) hne] at hw
    cases hw
  have hlen := hi.length
  have hfin := hi.final
  rw [← hn,hw] at hfin
  refine ⟨?_,?_,?_,?_⟩
  · cases hf : isFinished s.producer with
    | true => rfl
    | false => simp [hf,endEntry] at hfin
  · rw [hi.made,take_of_length_le (by omega)]
  · intro panel hm
    have := (announced_mem hi hm).2.1
    exact finished_of_handled hi hm (hi.ledger.handled _ (by omega))
  intro b panel hb
  by_cases he : b = s.nextBlock
  · rw [he,← hn,hw] at hb
    cases hb
  · rw [hi.absent b (by omega) he] at hb
    cases hb

/-- In an idle state the first waiting block still has a running task, so no
finished block is left behind. -/
theorem quiet_blocked (hl : s.loop = .receiving) (hq : s.progressNotice = [])
    (hr : s.reporting = []) (b : ℕ) {panel : BlockPanel δ} (hw : s.waiting b = some (some panel)) :
    ∃ earlier ∈ s.announced, earlier.blockNumber ≤ b ∧
      (s.finished.count earlier.blockNumber : ℤ) < earlier.taskCount := by
  obtain ⟨p,a,hi⟩ := hs
  have hlp := hi.ledger.loop
  rw [hl] at hlp
  have hpb : p ≤ b ∧ b < a := by
    by_contra hout
    by_cases he : b = s.nextBlock
    · rw [he,hi.final] at hw
      cases hf : isFinished s.producer && !s.progressNotice.any isAllDone <;>
        simp [hf,endEntry] at hw
    · rw [hi.absent b (by omega) he] at hw
      cases hw
  obtain ⟨q,hq1,-⟩ := hi.ledger.panels p le_rfl (by omega)
  have hm := mem_of_getElem? hq1
  have hn := (hi.numbered _ _ hq1).1
  have hf := hi.first_le
  have hnp : q.blockNumber = p := by omega
  have ht := (announced_mem hi hm).2.2
  have hpos := hlp.2 (by omega)
  have hwork := hi.work p
  simp only [unreported,hq,hr,count_nil,countP_nil] at hpos
  rw [hnp] at ht
  exact ⟨q,by omega,by rw [hnp]; omega⟩

/-- Once the producer has finished and every task was reported, the goroutine
does not wait for another message. -/
theorem exhausted_not_receiving
    (hp : s.producer = .finished) (he : s.executing = []) (hr : s.reporting = [])
    (hq : s.progressNotice = []) : s.loop ≠ .receiving := by
  obtain ⟨p,a,hi⟩ := hs
  intro hl
  have hlp := hi.ledger.loop
  rw [hl] at hlp
  have ha : a = s.nextBlock := by
    have := hi.received
    simpa [hq,starts] using this
  have hz : unreported s p = 0 := by simp [unreported,hp,owes,he,hr,hq]
  have hpa : p = a := by
    by_contra hne
    have := hlp.2 (by have := hi.le; omega)
    omega
  have hw := hlp.1 hpa
  rw [ha,hi.final,hp,hq] at hw
  simp [isFinished,endEntry] at hw

/-- The slot of the block just handled is still in the channel, so taking it
out never blocks. -/
theorem releasing_slot (hl : s.loop = .releasing bn) : 0 < s.waitingBlocks := by
  obtain ⟨p,a,hi⟩ := hs
  rw [hi.slots,hl]
  simp [isReleasing]

end

/-- In every interleaving the checkpoints are those of the announced blocks with data, in order
and once each, each after all tasks up to its block, and the done channel is closed after the last
one. -/
theorem checkpoint_loop_correct (workers first : ℕ) (acts : List (Action δ)) (s : State δ)
    (h : run (step workers) (init first) acts = some s) :
    (∃ k, s.checkpoints = checkpointCalls (s.announced.take k)) ∧
    s.announced.Pairwise (fun x y => x.blockNumber < y.blockNumber) ∧
    s.checkpoints.Pairwise (fun x y => x.1 < y.1) ∧
    (∀ act t call, step workers s act = some t → t.checkpoints = s.checkpoints++[call] →
      ∀ panel ∈ s.announced, panel.blockNumber ≤ call.1 →
        (s.finished.count panel.blockNumber : ℤ) = panel.taskCount) ∧
    s.loop ≠ .faulted ∧
    (∀ bn rest, s.progressNotice = .blockTaskDone bn::rest →
      ∃ panel, s.waiting bn = some (some panel)) ∧
    (s.loop = .closed → isFinished s.producer ∧
      s.checkpoints = checkpointCalls s.announced ∧
      (∀ panel ∈ s.announced, (s.finished.count panel.blockNumber : ℤ) = panel.taskCount) ∧
      ∀ b panel, s.waiting b ≠ some (some panel)) ∧
    (s.loop = .receiving → s.progressNotice = [] → s.reporting = [] →
      (∀ b panel, s.waiting b = some (some panel) → ∃ earlier ∈ s.announced,
        earlier.blockNumber ≤ b ∧
          (s.finished.count earlier.blockNumber : ℤ) < earlier.taskCount) ∧
      ¬(s.producer = .finished ∧ s.executing = [])) ∧
    (∀ bn, s.loop = .releasing bn → 0 < s.waitingBlocks) := by
  have hs := run_holds h
  have hh := hs
  obtain ⟨p,a,hi⟩ := hh
  have hasc := announced_ascending hi
  refine ⟨⟨_,hi.made⟩,hasc,?_,?_,?_,?_,?_,?_,?_⟩
  · rw [hi.made]
    exact calls_ascending (hasc.sublist (take_sublist _ _))
  · intro act t call ht hc panel hm hb
    exact finished_before_call hs ht hc hm hb
  · intro hl
    have := hi.ledger.loop
    rw [hl] at this
    exact this
  · intro bn rest hq
    obtain ⟨-,-,-,panel,-,hw⟩ := done_waiting hq hi
    exact ⟨_,hw⟩
  · exact closed_complete hs
  · intro hl hq hr
    exact ⟨quiet_blocked hs hl hq hr,fun hf => exhausted_not_receiving hs hf.1 hf.2 hr hq hl⟩
  · exact fun bn hl => releasing_slot hs hl

def twoBlocks : List (Action ℕ) :=
  [.next (some (70,2)),.start,.dispatch,.dispatch,.dispatch,.next none,.start,.dispatch,
    .noMoreData,.receive,.scan,.receive,.receive,.complete 5,.report 5,.receive,.scan,
    .complete 5,.report 5,.receive,.scan,.release,.scan,.release,.scan]

theorem checkpoint_loop_two_blocks :
    ∃ s, run (step 2) (init 5) twoBlocks = some s ∧ s.loop = .closed ∧
      s.checkpoints = checkpointCalls s.announced := by
  have hl : (run (step 2) (init 5) twoBlocks).map State.loop = some .closed := rfl
  obtain ⟨s,hs,hc⟩ := map_eq_some_iff.mp hl
  exact ⟨s,hs,hc,((checkpoint_loop_correct 2 5 twoBlocks s hs).2.2.2.2.2.2.1 hc).2.1⟩

/-- Once the checkpoint goroutine has closed, no task runs or has to be reported, no message is
queued, and every slot for a waiting block is free. -/
theorem closed_leaves_nothing (workers first : ℕ) (acts : List (Action δ)) (s : State δ)
    (h : run (step workers) (init first) acts = some s) (hl : s.loop = .closed) :
    s.executing = [] ∧ s.reporting = [] ∧ s.progressNotice = [] ∧ s.waitingBlocks = 0 := by
  have hs := run_holds h
  have hf := (closed_complete hs hl).1
  obtain ⟨p,a,hi⟩ := hs
  have hp := hi.ledger.loop
  rw [hl] at hp
  obtain ⟨rfl,hw⟩ := hp
  have hn : p = s.nextBlock := by
    by_contra hne
    rw [hi.absent p (.inr le_rfl) hne] at hw
    cases hw
  have hu (b : ℕ) : s.executing.count b = 0 ∧ s.reporting.count b = 0 ∧
      s.progressNotice.countP (isDoneOf b) = 0 := by
    by_contra hb
    have := unreported_bound b hi (by unfold unreported; omega)
    omega
  have hst : isStarting s.producer = false := by
    cases hq : s.producer <;> simp_all [isFinished,isStarting]
  refine ⟨?_,?_,?_,by simp [hi.slots,hl,hn,hst,isReleasing]⟩
  · exact eq_nil_iff_forall_not_mem.mpr fun b => count_eq_zero.mp (hu b).1
  · exact eq_nil_iff_forall_not_mem.mpr fun b => count_eq_zero.mp (hu b).2.1
  -- no kind of message can be at the head of the queue
  rcases hq : s.progressNotice with _ | ⟨panel | b | n,rest⟩
  · rfl
  · have := hi.received
    simp [hq,starts,startOf] at this
    omega
  · have := (hu b).2.2
    simp [hq,isDoneOf] at this
  · have := hi.final
    simp [← hn,hw,hf,hq,isAllDone,endEntry] at this

theorem closed_leaves_nothing_two : ∃ s, run (step 2) (init 5) twoBlocks = some s ∧
    s.waitingBlocks = 0 := by
  have hl : (run (step 2) (init 5) twoBlocks).map State.loop = some .closed := rfl
  obtain ⟨s,hs,hc⟩ := map_eq_some_iff.mp hl
  exact ⟨s,hs,(closed_leaves_nothing 2 5 twoBlocks s hs hc).2.2.2⟩

end
end Sentio.ProgressInvariant
