import SentioCore.ClientPoolModel
import SentioCore.Transition

/-!
# What a caller may rely on when it is handed a client

The number of the latest block of the pool never goes back, since entries behind
it do not count when it is built anew. A client that is handed out was checked
in one step, under both locks, against the state of that moment.
-/

namespace Sentio.ClientPoolSelection
open KeyedRows PoolModel ClientPoolModel Transition List Option UInt64 Prod
open Option (some.inj some.injEq)

def tagged (e : Extra) (tag : String) (validFrom : ℤ) : Bool :=
  (lookup fst e.tags tag).any (fun t => !decide (t.2 < validFrom))

variable {validFrom : ℤ} {e : Extra}

theorem hasTag_fst {tag : String} : (hasTag e tag validFrom).1 = tagged e tag validFrom := by
  cases hl : lookup fst e.tags tag with
  | none => simp [hasTag,tagged,hl]
  | some t =>
    by_cases ht : t.2 < validFrom
    · simp [hasTag,tagged,hl,ht]
    · simp [hasTag,tagged,hl,ht]

theorem hasTag_tagged {tag other : String} (validFrom : ℤ) :
    tagged (hasTag e tag validFrom).2 other validFrom = tagged e other validFrom := by
  rcases hl : lookup fst e.tags tag with _ | t
  · simp [hasTag,hl]
  by_cases ht : t.2 < validFrom
  · simp only [hasTag,hl,ht,if_true,tagged,lookup_erase]
    by_cases ho : other = tag
    · simp [ho,hl,ht]
    · simp [ho]
  · simp [hasTag,hl,ht]

theorem hasTag_ban {tag : String} : (hasTag e tag validFrom).2.ban = e.ban := by
  rw [hasTag]
  split
  · rfl
  · split <;> rfl

variable {tags : List String} {wanted : Bool}

theorem tagsAre_tagged {other : String} :
    tagged (tagsAre wanted validFrom tags e).2 other validFrom = tagged e other validFrom := by
  induction tags generalizing e with
  | nil => rfl
  | cons tag rest ih =>
    rw [tagsAre]
    split
    · rw [ih,hasTag_tagged]
    · exact hasTag_tagged validFrom

theorem tagsAre_ban : (tagsAre wanted validFrom tags e).2.ban = e.ban := by
  induction tags generalizing e with
  | nil => rfl
  | cons tag rest ih =>
    rw [tagsAre]
    split
    · rw [ih,hasTag_ban]
    · exact hasTag_ban

theorem tagsAre_all (e : Extra)
    (h : (tagsAre wanted validFrom tags e).1) (tag : String) (ht : tag ∈ tags) :
    tagged e tag validFrom = wanted := by
  induction tags generalizing e with
  | nil => simp at ht
  | cons head rest ih =>
    rw [tagsAre] at h
    split at h
    case isFalse => simp at h
    rename_i hhead
    rcases mem_cons.mp ht with rfl | ht
    · rw [← hasTag_fst,hhead]
    · rw [← hasTag_tagged validFrom]
      exact ih _ h ht

section
variable {CONFIG CLIENT : Type}

structure Suits (opt : Options CONFIG) (blackList : List String) (latest : Block) (extra : Extra)
    (validFrom : ℤ) (e : PoolEntry CONFIG CLIENT) : Prop where
  latest : latest.number ≤ e.status.latestBlock.number
  enabled : e.enable
  initialized : e.status.initialized
  unlisted : e.name ∉ blackList
  withTags : ∀ tag ∈ opt.withTags, tagged extra tag validFrom
  noTags : ∀ tag ∈ opt.noTags, tagged extra tag validFrom = false
  priority : opt.maxPriority.all (fun most => e.config.priority ≤ most)
  filter : opt.configFilter e.config.config

variable {clock : ℤ} {e : PoolEntry CONFIG CLIENT} {now : ℤ} {opt : Options CONFIG}
  {blackList : List String}

theorem checkEntry_suits {tagDuration : ℤ} {latest : Block} {extra : Extra}
    (h : (checkEntry opt blackList now clock tagDuration latest extra e).1) :
    Suits opt blackList latest extra (clock-tagDuration) e ∧
      extra.ban.any (fun b => b.enable now) = false := by
  rw [checkEntry] at h
  split at h
  · simp at h
  rename_i hlist
  split at h
  · simp at h
  rename_i hfilter
  split at h
  · simp at h
  rename_i hprio
  dsimp only at h
  split at h
  · simp at h
  rename_i hwith
  split at h
  · simp at h
  rename_i hno
  simp only [tagsAre_ban,Bool.and_eq_true,Bool.not_eq_true',decide_eq_false_iff_not] at h
  obtain ⟨⟨⟨hban,henable⟩,hinit⟩,hnumber⟩ := h
  refine ⟨⟨?_,henable,hinit,by simpa using hlist,?_,?_,?_,by simpa using hfilter⟩,hban⟩
  · rw [lt_iff_toNat_lt] at hnumber
    exact le_iff_toNat_le.mpr (by omega)
  · exact tagsAre_all _ (by simpa using hwith)
  · intro tag ht
    rw [← tagsAre_tagged]
    exact tagsAre_all _ (by simpa using hno) tag ht
  cases hm : opt.maxPriority with
  | none => rfl
  | some most =>
    have hnot : ¬most < e.config.priority := by simpa [hm] using hprio
    simpa using hnot

theorem checkEntry_ban (clock : ℤ) {tagDuration : ℤ} {latest : Block} {extra : Extra} :
    (checkEntry opt blackList now clock tagDuration latest extra e).2.2.ban = extra.ban := by
  rw [checkEntry]
  split
  · rfl
  split
  · rfl
  split
  · rfl
  dsimp only
  split
  · exact tagsAre_ban
  split
  · rw [tagsAre_ban,tagsAre_ban]
  · rw [tagsAre_ban,tagsAre_ban]

variable {l : List (PoolEntry CONFIG CLIENT)}

theorem latest_fold {bound : ℕ} (latest : Block) {f : Block → PoolEntry CONFIG CLIENT → Block}
    (hf : ∀ b e, f b e = b ∨ f b e = e.status.latestBlock)
    (hl : ∀ e ∈ l, bound ≤ e.status.latestBlock.number.toNat) (hb : bound ≤ latest.number.toNat) :
    bound ≤ (l.foldl f latest).number.toNat := by
  induction l generalizing latest with
  | nil => exact hb
  | cons e rest ih =>
    apply ih (f latest e) (fun other ho => hl other (mem_cons_of_mem e ho))
    rcases hf latest e with h | h
    · rwa [h]
    · rw [h]
      exact hl e mem_cons_self

theorem builder_rising (w : World CONFIG CLIENT) :
    Rising (builder w) (fun ps => ps.latestBlock.number.toNat) := by
  constructor
  intro entries pre
  rw [builder,poolStatusBuilder]
  have hvalid : ∀ e ∈ entries.filter (fun e => e.enable && e.status.initialized &&
      decide (pre.latestBlock.number ≤ e.status.latestBlock.number)),
      pre.latestBlock.number.toNat ≤ e.status.latestBlock.number.toNat := by
    intro e he
    have hcond := (mem_filter.mp he).2
    simp only [Bool.and_eq_true,decide_eq_true_eq] at hcond
    exact le_iff_toNat_le.mp hcond.2
  split
  · exact le_rfl
  rename_i first rest hsplit
  have hlisted := hvalid
  rw [hsplit] at hlisted
  refine latest_fold _ ?_ hvalid ?_
  case refine_2 =>
    refine latest_fold _ ?_ (fun e he => hlisted e (mem_cons_of_mem first he))
      (hlisted first mem_cons_self)
    intro b e
    split
    · exact .inr rfl
    · exact .inl rfl
  intro b e
  split
  · exact .inl rfl
  split
  · exact .inr rfl
  · exact .inl rfl

def NoNewBan (old new : List (String × Extra)) : Prop :=
  ∀ m ∈ new, ∀ b, m.2.ban = some b →
    ∃ o ∈ old, o.1 = m.1 ∧ ∃ before, o.2.ban = some before ∧ before.start = b.start

theorem noNewBan_of_mem {old new : List (String × Extra)} (h : ∀ m ∈ new, m ∈ old) :
    NoNewBan old new :=
  fun m hm b hb => ⟨m,h m hm,rfl,b,hb,rfl⟩

theorem noNewBan_refl (m : List (String × Extra)) : NoNewBan m m :=
  noNewBan_of_mem (fun _ h => h)

theorem noNewBan_trans {a b c : List (String × Extra)} (hab : NoNewBan a b) (hbc : NoNewBan b c) :
    NoNewBan a c := by
  intro m hm ban hban
  obtain ⟨o,ho,hname,before,hbefore,hstart⟩ := hbc m hm ban hban
  obtain ⟨p,hp,hfirst,earlier,hearlier,hsame⟩ := hab o ho before hbefore
  exact ⟨p,hp,hfirst.trans hname,earlier,hearlier,hsame.trans hstart⟩

theorem noNewBan_erase {m : List (String × Extra)} {name : String} :
    NoNewBan m (erase fst m name) :=
  noNewBan_of_mem (fun _ h => mem_of_mem_filter h)

variable {name : String} {m : List (String × Extra)}

theorem extraOf_ban {b : Ban}
    (h : (extraOf m name).ban = some b) : ∃ o ∈ m, o.1 = name ∧ o.2.ban = some b := by
  cases hl : lookup fst m name with
  | none => simp [extraOf,hl,Extra.none] at h
  | some o =>
    refine ⟨o,lookup_mem _ hl,lookup_key _ hl,?_⟩
    simpa [extraOf,hl] using h

theorem noNewBan_upsert {e : Extra}
    (h : ∀ b, e.ban = some b → ∃ before, (extraOf m name).ban = some before ∧
      before.start = b.start) : NoNewBan m (upsert fst m (name,e)) := by
  intro o ho b hb
  rw [upsert,mem_append,mem_singleton] at ho
  rcases ho with ho | rfl
  · exact noNewBan_erase o ho b hb
  obtain ⟨before,hbefore,hstart⟩ := h b hb
  obtain ⟨p,hp,hname,hban⟩ := extraOf_ban hbefore
  exact ⟨p,hp,hname,before,hban,hstart⟩

theorem noNewBan_putBack {e : Extra}
    (h : e.ban = (extraOf m name).ban) : NoNewBan m (putBack m name e) := by
  rw [putBack]
  split
  · exact noNewBan_upsert (fun b hb => ⟨b,h ▸ hb,rfl⟩)
  · exact noNewBan_refl m

variable {w : World CONFIG CLIENT}

theorem noNewBan_findEntries
    {entries : List (PoolEntry CONFIG CLIENT)} (m : List (String × Extra)) :
    NoNewBan m (findEntries opt w entries m).2 := by
  induction entries generalizing m with
  | nil => exact noNewBan_refl m
  | cons e rest ih =>
    exact noNewBan_trans (noNewBan_putBack (checkEntry_ban _)) (ih _)

theorem noNewBan_anyEntryHasTag :
    NoNewBan m (anyEntryHasTag validFrom tags m).2 := by
  induction m with
  | nil => exact noNewBan_refl []
  | cons o rest ih =>
    have hhead : ∀ b, (tagsAre false validFrom tags o.2).2.ban = some b →
        ∃ p ∈ o::rest, p.1 = o.1 ∧ ∃ before, p.2.ban = some before ∧ before.start = b.start := by
      intro b hb
      rw [tagsAre_ban] at hb
      exact ⟨o,mem_cons_self,rfl,b,hb,rfl⟩
    intro q hq b hb
    simp only [anyEntryHasTag] at hq
    split at hq
    · rcases mem_cons.mp hq with rfl | hq
      · exact hhead b hb
      · exact ⟨q,mem_cons_of_mem o hq,rfl,b,hb,rfl⟩
    rcases mem_cons.mp hq with rfl | hq
    · exact hhead b hb
    · obtain ⟨p,hp,hrest⟩ := ih q hq b hb
      exact ⟨p,mem_cons_of_mem o hp,hrest⟩

theorem noNewBan_remember {env : Env CONFIG} {f : Extra → Extra}
    (h : ∀ e b, (f e).ban = some b → ∃ before, e.ban = some before ∧ before.start = b.start) :
    NoNewBan w.entryExtra (remember env w name f) := by
  rw [remember]
  split
  · exact noNewBan_upsert (fun b hb => h _ b hb)
  · exact noNewBan_refl _

/-- What the steps of others leave a caller with. -/
structure Outside (w next : World CONFIG CLIENT) : Prop where
  clock : w.clock ≤ next.clock
  rises : w.pool.status.latestBlock.number.toNat ≤ next.pool.status.latestBlock.number.toNat
  bans : NoNewBan w.entryExtra next.entryExtra
  calls : ∀ i call, next.calls[i]? = some call → w.calls[i]? = some call ∨
    w.calls.length ≤ i ∧ call.phase = .entering

variable {next : World CONFIG CLIENT}

theorem outside_of_calls (hclock : w.clock ≤ next.clock)
    (hrises : w.pool.status.latestBlock.number.toNat ≤ next.pool.status.latestBlock.number.toNat)
    (hbans : NoNewBan w.entryExtra next.entryExtra) (hcalls : next.calls = w.calls) :
    Outside w next :=
  ⟨hclock,hrises,hbans,fun _ _ h => .inl (hcalls ▸ h)⟩

theorem moveCursor_outside {env : Env CONFIG}
    {downgrade hasValid : Bool} : Outside w (moveCursor env w downgrade hasValid) := by
  have hsame : ∀ cursor m, Outside w {w with priorityCursor := cursor, manager := m} :=
    fun _ _ => outside_of_calls le_rfl le_rfl (noNewBan_refl _) rfl
  have hindexed : ∀ i cursor m, Outside w
      (indexed w i {w with priorityCursor := cursor, manager := m}) := by
    intro i cursor m
    rw [indexed]
    split
    · exact hsame _ _
    · exact hsame _ _
  rw [moveCursor]
  split
  · split
    · exact hsame _ _
    · exact hindexed _ _ _
  split
  · split
    · split
      · exact hindexed _ _ _
      · exact hsame _ _
    · exact hsame _ _
  · exact hsame _ _

variable {env : Env CONFIG}

theorem manage_outside (h : manage env w = some next) : Outside w next := by
  have hrise := builder_rising w
  have hquiet : ∀ m, Outside w {w with manager := m} :=
    fun _ => outside_of_calls le_rfl le_rfl (noNewBan_refl _) rfl
  have hpool : ∀ pool m, w.pool.status.latestBlock.number.toNat ≤
      pool.status.latestBlock.number.toNat → Outside w {w with pool := pool, manager := m} :=
    fun _ _ hle => outside_of_calls le_rfl hle (noNewBan_refl _) rfl
  have hextra : ∀ opt m, Outside w {w with
      entryExtra := (findEntries opt w w.pool.entries w.entryExtra).2, manager := m} :=
    fun _ _ => outside_of_calls le_rfl le_rfl (noNewBan_findEntries _) rfl
  cases hm : w.manager with
  | idle => simp [manage,hm] at h
  | adding rest gone =>
    cases rest with
    | nil =>
      simp only [manage,hm,some.injEq] at h
      exact h ▸ hquiet _
    | cons cc rest =>
      simp only [manage,hm,ite_none_left_eq_some] at h
      exact some.inj h.2 ▸ hpool _ _ (add_rises (builder w) w.pool _ hrise)
  | removing gone =>
    cases gone with
    | nil =>
      simp only [manage,hm,some.injEq] at h
      exact h ▸ hquiet _
    | cons name gone =>
      simp only [manage,hm,ite_none_left_eq_some] at h
      exact some.inj h.2 ▸ hpool _ _ (remove_rises (builder w) w.pool _ hrise)
  | asking =>
    simp only [manage,hm,ite_none_left_eq_some] at h
    obtain ⟨-,h⟩ := h
    split at h
    · exact some.inj h ▸ hquiet _
    · exact some.inj h ▸ hquiet _
  | searching =>
    simp only [manage,hm,ite_none_left_eq_some] at h
    exact some.inj h.2 ▸ hextra _ _
  | upgrading downgrade =>
    simp only [manage,hm] at h
    split at h
    · exact some.inj h ▸ hquiet _
    split at h
    · exact some.inj h ▸ hquiet _
    split at h
    · simp at h
    · exact some.inj h ▸ hextra _ _
  | moving downgrade hasValid =>
    simp only [manage,hm,some.injEq] at h
    exact h ▸ moveCursor_outside
  | applying =>
    simp only [manage,hm,some.injEq] at h
    exact h ▸ hquiet _
  | switching enableList disableList =>
    cases enableList with
    | nil =>
      cases disableList with
      | nil =>
        simp only [manage,hm,some.injEq] at h
        exact h ▸ hquiet _
      | cons name rest =>
        simp only [manage,hm,ite_none_left_eq_some] at h
        exact some.inj h.2 ▸ hpool _ _ (by rw [disable_status])
    | cons name rest =>
      simp only [manage,hm,ite_none_left_eq_some] at h
      exact some.inj h.2 ▸ hpool _ _ (enable_rises (builder w) w.pool _ hrise)
  | panicked index length => simp [manage,hm] at h

variable {o : String × Extra}

theorem foldl_erase_mem {α : Type} {key : α → String} {l : List α} (m : List (String × Extra)) (h : o ∈ l.foldl (fun m a => erase fst m (key a)) m) : o ∈ m := by
  induction l generalizing m with
  | nil => exact h
  | cons a rest ih => exact mem_of_mem_filter (ih _ h)

theorem updateEntries_extra {l : List (ClientConfig CONFIG)} (u : Update CONFIG) (h : o ∈ (l.foldl (updateEntry env) u).entryExtra) : o ∈ u.entryExtra := by
  induction l generalizing u with
  | nil => exact h
  | cons cc rest ih =>
    have hmem := ih (updateEntry env u cc) h
    simp only [updateEntry] at hmem
    split at hmem
    · exact hmem
    · exact mem_of_mem_filter hmem

theorem shuffle_outside {map : MapName} {order : List ℕ}
    (h : shuffle w order map = some next) : Outside w next := by
  cases map with
  | entries | configEntries =>
    simp only [shuffle,ite_none_right_eq_some] at h
    exact some.inj h.2 ▸ outside_of_calls le_rfl le_rfl (noNewBan_refl _) rfl
  | entryExtra =>
    simp only [shuffle,ite_none_right_eq_some] at h
    obtain ⟨hperm,h⟩ := h
    have hp := reorder_perm (isPerm_iff.mp hperm)
    exact some.inj h ▸ outside_of_calls le_rfl le_rfl
      (noNewBan_of_mem (fun _ hm => hp.mem_iff.mp hm)) rfl

variable {event : Event CONFIG CLIENT}

/-- Every step but that of a caller is one of the others. -/
theorem step_outside (hcaller : ∀ i move, event ≠ .proceed i move)
    (h : step env w event = some next) : Outside w next := by
  cases event with
  | tick passed =>
    have hle : w.clock ≤ w.clock+passed := by omega
    exact some.inj h ▸ outside_of_calls hle le_rfl (noNewBan_refl _) rfl
  | updateConfig c =>
    simp only [step,ite_none_right_eq_some] at h
    cases h.2
    refine outside_of_calls le_rfl le_rfl (noNewBan_of_mem ?_) rfl
    intro o ho
    exact updateEntries_extra _ (foldl_erase_mem _ ho)
  | adjustPriority =>
    simp only [step,ite_none_right_eq_some] at h
    exact some.inj h.2 ▸ outside_of_calls le_rfl le_rfl (noNewBan_refl _) rfl
  | manage => exact manage_outside h
  | report ref status =>
    simp only [step,ite_none_left_eq_some] at h
    exact some.inj h.2 ▸ outside_of_calls le_rfl
      (report_rises (builder w) w.pool _ ref status (builder_rising w)) (noNewBan_refl _) rfl
  | shuffle map order => exact shuffle_outside h
  | useClient opt =>
    cases h
    refine ⟨le_rfl,le_rfl,noNewBan_refl _,?_⟩
    intro i call hcall
    rcases Nat.lt_or_ge i w.calls.length with hi | hi
    · left
      rwa [getElem?_append_left hi] at hcall
    right
    rw [getElem?_append_right hi,getElem?_singleton] at hcall
    split at hcall
    · exact ⟨hi,some.inj hcall ▸ rfl⟩
    · simp at hcall
  | proceed i move => exact absurd rfl (hcaller i move)

def awaits : Phase CONFIG CLIENT → String → Option ℤ
  | .timed now, _ => some now
  | .fetching now rest _ _, name => if name ∈ rest then some now else none
  | _, _ => none

def candidates : Phase CONFIG CLIENT → List (PoolEntry CONFIG CLIENT)
  | .fetching _ _ found _ | .fetched found _ _ => found
  | .executing ent _ | .tagging ent _ _ | .judging ent _ => [ent]
  | _ => []

/-- The entry that the next step of a caller bans for the first time. -/
def bans (env : Env CONFIG) (w : World CONFIG CLIENT) (call : Call CONFIG CLIENT) : Option String :=
  match call.phase with
  | .judging ent result =>
    if result.broken && (lookup (nameOf env) w.configEntries ent.name).isSome &&
        (extraOf w.entryExtra ent.name).ban.isNone then some ent.name
    else none
  | _ => none

/-- What one step of a caller can do. -/
structure Moved (env : Env CONFIG) (w : World CONFIG CLIENT) (call : Call CONFIG CLIENT)
    (move : Move) (moved : Call CONFIG CLIENT × List (String × Extra)) : Prop where
  opt : moved.1.opt = call.opt
  readings : ∀ name now, awaits moved.1.phase name = some now →
    awaits call.phase name = some now ∨ now = w.clock ∧ call.phase = .searching
  banned : ∀ m ∈ moved.2, ∀ b, m.2.ban = some b →
    (∃ o ∈ w.entryExtra, o.1 = m.1 ∧ ∃ before, o.2.ban = some before ∧ before.start = b.start) ∨
      bans env w call = some m.1 ∧ b.start = w.clock
  chosen : ∀ e ∈ candidates moved.1.phase, moved.1.blackList = call.blackList ∧
    (e ∈ candidates call.phase ∨ move = .next ∧ find w.pool e.name = some e ∧
      ∃ now, awaits call.phase e.name = some now ∧
        (checkEntry call.opt call.blackList now w.clock w.config.tagDuration
          w.pool.status.latestBlock (extraOf w.entryExtra e.name) e).1)

variable {call : Call CONFIG CLIENT}

theorem moved_on {move : Move} {next : Call CONFIG CLIENT}
    (ho : next.opt = call.opt) (hl : next.blackList = call.blackList)
    (ha : ∀ name now, awaits next.phase name = some now → awaits call.phase name = some now ∨
      now = w.clock ∧ call.phase = .searching) (hb : NoNewBan w.entryExtra m)
    (hc : ∀ e ∈ candidates next.phase, e ∈ candidates call.phase) :
    Moved env w call move (next,m) :=
  ⟨ho,ha,fun o hm b hban => .inl (hb o hm b hban),fun e he => ⟨hl,.inl (hc e he)⟩⟩

theorem moved_empty {move : Move} {next : Call CONFIG CLIENT} (ho : next.opt = call.opt)
    (ha : ∀ name, awaits next.phase name = none) (hb : NoNewBan w.entryExtra m)
    (hc : candidates next.phase = []) : Moved env w call move (next,m) :=
  ⟨ho,fun name now h => by simp [ha name] at h,fun o hm b hban => .inl (hb o hm b hban),
    fun e he => by simp [hc] at he⟩

theorem chooseOne_mem (target : Option (PoolEntry CONFIG CLIENT × ℕ)) (keys : List ℕ) {chosen : PoolEntry CONFIG CLIENT × ℕ}
    (h : chooseOne target l keys = some chosen) : chosen.1 ∈ l ∨ target = some chosen := by
  induction l generalizing target keys with
  | nil => exact .inr (by simpa [chooseOne] using h)
  | cons e rest ih =>
    have hlater : ∀ t keys, chooseOne t rest keys = some chosen →
        chosen.1 ∈ e::rest ∨ t = some chosen := by
      intro t keys ht
      rcases ih t keys ht with hmem | hsame
      · exact .inl (mem_cons_of_mem e hmem)
      · exact .inr hsame
    have hfirst : ∀ key keys, chooseOne (some (e,key)) rest keys = some chosen →
        chosen.1 ∈ e::rest ∨ target = some chosen := by
      intro key keys ht
      rcases hlater _ keys ht with hmem | hsame
      · exact .inl hmem
      · exact .inl (some.inj hsame ▸ mem_cons_self)
    rcases keys with _ | ⟨key,keys⟩
    · exact .inr (by simpa [chooseOne] using h)
    rcases target with _ | t
    · exact hfirst key keys h
    simp only [chooseOne] at h
    split at h
    · exact hfirst key keys h
    · exact hlater _ keys h

theorem judge_moved
    {ent : PoolEntry CONFIG CLIENT} {result : Result} (hp : call.phase = .judging ent result) :
    Moved env w call .next (judge env w call ent result) := by
  rw [judge]
  split
  · refine moved_empty rfl (fun _ => rfl) ?_ rfl
    exact noNewBan_remember (fun e b hb => by simp [setActive] at hb)
  refine ⟨rfl,fun name now h => by simp [awaits] at h,?_,fun e he => by simp [candidates] at he⟩
  intro m hm b hb
  change m ∈ clientBan env w ent.name result.broken at hm
  rw [clientBan] at hm
  split at hm
  case isFalse => exact .inl (noNewBan_refl _ m hm b hb)
  rename_i hbroken
  rw [remember] at hm
  split at hm
  case isFalse => exact .inl (noNewBan_refl _ m hm b hb)
  rename_i hconf
  rcases hban : (extraOf w.entryExtra ent.name).ban with _ | before
  · rw [upsert,mem_append,mem_singleton] at hm
    rcases hm with hm | rfl
    · exact .inl (noNewBan_erase m hm b hb)
    right
    simp only [setBan,hban,some.injEq] at hb
    exact ⟨by simp [bans,hp,hbroken,hconf,hban],by rw [← hb]⟩
  left
  apply noNewBan_upsert _ m hm b hb
  intro c hc
  refine ⟨before,hban,?_⟩
  simp only [setBan,hban] at hc
  split at hc
  · rw [hban,some.injEq] at hc
    rw [hc]
  · rw [← some.inj hc]
    rfl

theorem fetchNext_moved {rest : List String} {found : List (PoolEntry CONFIG CLIENT)}
    {backup : ℕ} (hp : call.phase = .fetching now (name::rest) found backup) :
    Moved env w call .next (fetchNext w call now name rest found backup) := by
  have hawaits : ∀ k t, (if k ∈ rest then some now else none) = some t →
      awaits call.phase k = some t := by
    intro k t ht
    rw [hp]
    split at ht
    case isTrue hk => simpa [awaits,hk] using ht
    case isFalse => simp at ht
  rw [fetchNext]
  rcases hf : find w.pool name with _ | e
  · refine moved_on rfl rfl ?_ (noNewBan_refl _) ?_
    · intro k t ht
      exact .inl (hawaits k t ht)
    intro e he
    rw [hp]
    exact he
  have hname : e.name = name := lookup_key _ hf
  refine ⟨rfl,fun k t ht => .inl (hawaits k t ht),?_,?_⟩
  · intro m hm b hb
    left
    exact noNewBan_putBack (checkEntry_ban _) m hm b hb
  intro c hc
  refine ⟨rfl,?_⟩
  simp only [candidates] at hc
  split at hc
  case isTrue hcheck =>
    rcases mem_append.mp hc with hc | hc
    · left
      rw [hp]
      exact hc
    right
    obtain rfl := mem_singleton.mp hc
    subst hname
    exact ⟨rfl,hf,now,by simp [hp,awaits],hcheck⟩
  left
  rw [hp]
  exact hc

variable {moved : Call CONFIG CLIENT × List (String × Extra)}

theorem next_moved (h : proceed env w call .next = some moved) : Moved env w call .next moved := by
  have hsame := noNewBan_refl w.entryExtra
  cases hp : call.phase with
  | entering =>
    simp only [proceed,hp,some.injEq] at h
    rw [← h]
    refine moved_empty rfl ?_ noNewBan_anyEntryHasTag ?_
    · intro name
      split <;> rfl
    · split <;> rfl
  | searching =>
    simp only [proceed,hp,some.injEq] at h
    rw [← h]
    refine moved_on rfl rfl ?_ hsame (fun e he => by simp [candidates] at he)
    intro name now hnow
    exact .inr ⟨(some.inj hnow).symm,hp⟩
  | timed now =>
    simp only [proceed,hp,ite_none_left_eq_some] at h
    rw [← some.inj h.2]
    refine moved_on rfl rfl ?_ hsame (fun e he => by simp [candidates] at he)
    intro name t ht
    left
    rw [hp]
    simp only [awaits] at ht
    split at ht
    · exact ht
    · simp at ht
  | fetching now rest found backup =>
    cases rest with
    | nil =>
      simp only [proceed,hp,some.injEq] at h
      rw [← h]
      refine moved_on rfl rfl (fun name t ht => by simp [awaits] at ht) hsame ?_
      intro e he
      rw [hp]
      exact he
    | cons name rest =>
      simp only [proceed,hp,some.injEq] at h
      exact h ▸ fetchNext_moved hp
  | fetched found backup psi =>
    cases found with
    | nil =>
      simp only [proceed,hp] at h
      split at h
      · exact some.inj h ▸ moved_empty rfl (fun _ => rfl) hsame rfl
      · exact some.inj h ▸ moved_empty rfl (fun _ => rfl) hsame rfl
    | cons e rest => simp [proceed,hp] at h
  | waiting psi =>
    simp only [proceed,hp,ite_none_right_eq_some] at h
    exact some.inj h.2 ▸ moved_empty rfl (fun _ => rfl) hsame rfl
  | executing ent startAt => simp [proceed,hp] at h
  | tagging ent tags result =>
    have hent : ∀ e ∈ [ent], e ∈ candidates call.phase := by
      intro e he
      rw [hp]
      exact he
    cases tags with
    | nil =>
      simp only [proceed,hp,some.injEq] at h
      rw [← h]
      exact moved_on rfl rfl (fun _ _ ht => by simp [awaits] at ht) hsame hent
    | cons tag tags =>
      simp only [proceed,hp,some.injEq] at h
      rw [← h]
      refine moved_on rfl rfl (fun _ _ ht => by simp [awaits] at ht) ?_ hent
      exact noNewBan_remember (fun e b hb => ⟨b,hb,rfl⟩)
  | judging ent result =>
    simp only [proceed,hp,some.injEq] at h
    exact h ▸ judge_moved hp
  | left report => simp [proceed,hp] at h

variable {move : Move}

theorem proceed_moved (h : proceed env w call move = some moved) : Moved env w call move moved := by
  have hsame := noNewBan_refl w.entryExtra
  cases move with
  | next => exact next_moved h
  | pick keys =>
    simp only [proceed] at h
    split at h
    case h_2 => simp at h
    rename_i e rest backup psi hp
    split at h
    · simp at h
    obtain ⟨target,htarget,rfl⟩ := map_eq_some_iff.mp h
    refine moved_on rfl rfl (fun _ _ ht => by simp [awaits] at ht) hsame ?_
    intro c hc
    obtain rfl := mem_singleton.mp hc
    rw [hp]
    exact (chooseOne_mem none keys htarget).resolve_right (by simp)
  | cancel =>
    simp only [proceed] at h
    split at h
    case h_2 => simp at h
    case h_1 =>
      exact some.inj h ▸ moved_empty rfl (fun _ => rfl) hsame rfl
  | finish result =>
    simp only [proceed] at h
    split at h
    case h_2 => simp at h
    rename_i ent startAt hp
    rw [← some.inj h]
    refine moved_on rfl rfl (fun _ _ ht => by simp [awaits] at ht) hsame ?_
    intro e he
    rw [hp]
    exact he

/-- A ban of an entry that a search is still to check began before its reading of
the clock. -/
structure CallInv (w : World CONFIG CLIENT) (call : Call CONFIG CLIENT) : Prop where
  read : ∀ name now, awaits call.phase name = some now → now ≤ w.clock
  bans : ∀ name now, awaits call.phase name = some now → ∀ m ∈ w.entryExtra, m.1 = name →
    ∀ b, m.2.ban = some b → b.start ≤ now

structure WorldInv (w : World CONFIG CLIENT) : Prop where
  past : ∀ m ∈ w.entryExtra, ∀ b, m.2.ban = some b → b.start ≤ w.clock
  calls : ∀ (i : ℕ) (call : Call CONFIG CLIENT), w.calls[i]? = some call → CallInv w call

theorem newClientPool_inv : WorldInv (newClientPool : World CONFIG CLIENT) :=
  ⟨fun m hm => by simp [newClientPool] at hm,fun i call h => by simp [newClientPool] at h⟩

theorem outside_inv (ho : Outside w next) (hw : WorldInv w) : WorldInv next := by
  constructor
  · intro m hm b hb
    obtain ⟨o,homem,-,before,hbefore,hstart⟩ := ho.bans m hm b hb
    rw [← hstart]
    exact (hw.past o homem before hbefore).trans ho.clock
  intro i call hcall
  rcases ho.calls i call hcall with hold | ⟨-,hnew⟩
  · have hinv := hw.calls i call hold
    refine ⟨fun name now h => (hinv.read name now h).trans ho.clock,?_⟩
    intro name now h m hm hname b hb
    obtain ⟨o,homem,hsame,before,hbefore,hstart⟩ := ho.bans m hm b hb
    rw [← hstart]
    exact hinv.bans name now h o homem (hsame.trans hname) before hbefore
  · constructor
    · intro name now h
      simp [hnew,awaits] at h
    · intro name now h
      simp [hnew,awaits] at h

/-- No search that read the clock earlier is still to check the entry. -/
def unsearched (w : World CONFIG CLIENT) (name : String) : Bool :=
  w.calls.all (fun call => (awaits call.phase name).all (fun now => w.clock ≤ now))

/-- An entry is banned for the first time only if no search would overlook the ban. -/
def Orderly (env : Env CONFIG) (w : World CONFIG CLIENT) : Event CONFIG CLIENT → Prop
  | .proceed i _ => ((w.calls[i]?).bind (bans env w)).all (unsearched w)
  | _ => True

instance (env : Env CONFIG) (w : World CONFIG CLIENT) (event : Event CONFIG CLIENT) :
    Decidable (Orderly env w event) :=
  match event with
  | .proceed _ _ => inferInstanceAs (Decidable (_ = _))
  | .tick _ | .updateConfig _ | .adjustPriority | .manage | .report _ _ | .shuffle _ _
  | .useClient _ => .isTrue trivial

variable {i : ℕ}

theorem proceed_cases (h : step env w (.proceed i move) = some next) :
    ∃ call moved, w.calls[i]? = some call ∧ Moved env w call move moved ∧
      next = {w with calls := w.calls.set i moved.1, entryExtra := moved.2} := by
  simp only [step] at h
  split at h
  · simp at h
  case h_2 call hcall =>
    obtain ⟨moved,hmoved,rfl⟩ := map_eq_some_iff.mp h
    exact ⟨call,moved,hcall,proceed_moved hmoved,rfl⟩

theorem calls_set {calls : List (Call CONFIG CLIENT)} {j : ℕ} {old new : Call CONFIG CLIENT}
    (hi : calls[i]? = some old) (h : (calls.set i new)[j]? = some call) :
    i = j ∧ call = new ∨ i ≠ j ∧ calls[j]? = some call := by
  by_cases hij : i = j
  · subst hij
    rw [List.getElem?_set_self (List.getElem?_eq_some_iff.mp hi).1] at h
    exact .inl ⟨rfl,(some.inj h).symm⟩
  · rw [getElem?_set_ne hij] at h
    exact .inr ⟨hij,h⟩

theorem unsearched_le (h : unsearched w name) (hcall : w.calls[i]? = some call)
    (hnow : awaits call.phase name = some now) : w.clock ≤ now := by
  have hall := all_eq_true.mp h call (mem_of_getElem? hcall)
  simpa [hnow] using hall

theorem proceed_inv (hw : WorldInv w) (hgood : Orderly env w (.proceed i move))
    (h : step env w (.proceed i move) = some next) : WorldInv next := by
  obtain ⟨call,moved,hcall,hm,rfl⟩ := proceed_cases h
  have hbans : ∀ (j : ℕ) (other : Call CONFIG CLIENT) (name : String) (now : ℤ),
      w.calls[j]? = some other → awaits other.phase name = some now →
      ∀ m ∈ moved.2, m.1 = name → ∀ b, m.2.ban = some b → b.start ≤ now := by
    intro j other name now hother hnow m hmem hname b hb
    rcases hm.banned m hmem b hb with ⟨o,ho,hsame,before,hbefore,hstart⟩ | ⟨hnew,hstart⟩
    · rw [← hstart]
      exact (hw.calls j other hother).bans name now hnow o ho (hsame.trans hname) before hbefore
    have hfree : unsearched w m.1 := by simpa [Orderly,hcall,hnew] using hgood
    rw [hstart]
    exact unsearched_le hfree hother (hname ▸ hnow)
  constructor
  · intro m hmem b hb
    rcases hm.banned m hmem b hb with ⟨o,ho,-,before,hbefore,hstart⟩ | ⟨-,hstart⟩
    · rw [← hstart]
      exact hw.past o ho before hbefore
    · exact hstart.le
  intro j other hother
  rcases calls_set hcall hother with ⟨rfl,rfl⟩ | ⟨-,hold⟩
  · constructor
    · intro name now hnow
      rcases hm.readings name now hnow with hold | ⟨hclock,-⟩
      · exact (hw.calls i call hcall).read name now hold
      · exact hclock.le
    intro name now hnow m hmem hname b hb
    rcases hm.readings name now hnow with hold | ⟨hclock,hphase⟩
    · exact hbans i call name now hcall hold m hmem hname b hb
    rcases hm.banned m hmem b hb with ⟨o,ho,-,before,hbefore,hstart⟩ | ⟨hnew,-⟩
    · rw [← hstart,hclock]
      exact hw.past o ho before hbefore
    · simp [bans,hphase] at hnew
  · exact ⟨(hw.calls j other hold).read,fun name now hnow => hbans j other name now hold hnow⟩

theorem caller_or_outside (event : Event CONFIG CLIENT) :
    (∃ i move, event = .proceed i move) ∨ ∀ i move, event ≠ .proceed i move := by
  cases event with
  | proceed i move => exact .inl ⟨i,move,rfl⟩
  | _ => exact .inr (fun _ _ => nofun)

theorem step_inv (env : Env CONFIG) (w : World CONFIG CLIENT) (event : Event CONFIG CLIENT)
    (next : World CONFIG CLIENT) (hw : WorldInv w) (hgood : Orderly env w event)
    (h : step env w event = some next) : WorldInv next := by
  rcases caller_or_outside event with ⟨i,move,rfl⟩ | hother
  · exact proceed_inv hw hgood h
  · exact outside_inv (step_outside hother h) hw

/-- The entry as it is in the pool at the moment of its check, with all that is
asked of it at that moment. -/
structure Selected (w : World CONFIG CLIENT) (opt : Options CONFIG) (blackList : List String)
    (e : PoolEntry CONFIG CLIENT) : Prop where
  present : find w.pool e.name = some e
  suits : Suits opt blackList w.pool.status.latestBlock (extraOf w.entryExtra e.name)
    (w.clock-w.config.tagDuration) e
  unbanned : (extraOf w.entryExtra e.name).ban.any (fun b => b.enable w.clock) = false

/-- A ban that a search would have seen and did not see is over. -/
theorem unbanned_later {ban : Option Ban} (hle : now ≤ clock)
    (hstart : ∀ b, ban = some b → b.start ≤ now) (h : ban.any (fun b => b.enable now) = false) :
    ban.any (fun b => b.enable clock) = false := by
  cases ban with
  | none => rfl
  | some b =>
    have hb := hstart b rfl
    simp only [any_some,Ban.enable,Bool.and_eq_false_iff,decide_eq_false_iff_not] at h ⊢
    omega

theorem moved_selected (hw : WorldInv w) (hcall : w.calls[i]? = some call)
    (hm : Moved env w call move moved) (he : e ∈ candidates moved.1.phase) :
    e ∈ candidates call.phase ∨ move = .next ∧ Selected w call.opt call.blackList e := by
  rcases (hm.chosen e he).2 with hold | ⟨hmove,hfind,now,hnow,hcheck⟩
  · exact .inl hold
  right
  obtain ⟨hsuits,hban⟩ := checkEntry_suits hcheck
  refine ⟨hmove,hfind,hsuits,?_⟩
  apply unbanned_later ((hw.calls i call hcall).read e.name now hnow) _ hban
  intro b hb
  obtain ⟨o,ho,hname,hoban⟩ := extraOf_ban hb
  exact (hw.calls i call hcall).bans e.name now hnow o ho hname b hoban

/-- Every candidate of a caller that came after the start was selected in a step
of that caller. -/
def Recorded (env : Env CONFIG) (s : World CONFIG CLIENT) (events : List (Event CONFIG CLIENT))
    (w : World CONFIG CLIENT) : Prop :=
  ∀ i call, s.calls.length ≤ i → w.calls[i]? = some call → ∀ e ∈ candidates call.phase,
    ∃ before after m, events = before++.proceed i .next::after ∧
      run (step env) s before = some m ∧ Selected m call.opt call.blackList e

variable {s : World CONFIG CLIENT} {events : List (Event CONFIG CLIENT)}

theorem recorded_snoc (h : ∃ before after m, events = before++.proceed i .next::after ∧
      run (step env) s before = some m ∧ Selected m call.opt call.blackList e) :
    ∃ before after m, events++[event] = before++.proceed i .next::after ∧
      run (step env) s before = some m ∧ Selected m call.opt call.blackList e := by
  obtain ⟨before,after,m,rfl,hm⟩ := h
  exact ⟨before,after++[event],m,by simp,hm⟩

theorem recorded_step
    (hrun : run (step env) s events = some w) (hw : WorldInv w) (hr : Recorded env s events w)
    (h : step env w event = some next) : Recorded env s (events++[event]) next := by
  intro i call hi hcall e he
  rcases caller_or_outside event with ⟨j,move,rfl⟩ | hother
  · obtain ⟨old,moved,hold,hm,rfl⟩ := proceed_cases h
    rcases calls_set hold hcall with ⟨rfl,rfl⟩ | ⟨-,hsame⟩
    · rw [hm.opt,(hm.chosen e he).1]
      rcases moved_selected hw hold hm he with hbefore | ⟨rfl,hsel⟩
      · exact recorded_snoc (hr j old hi hold e hbefore)
      · exact ⟨events,[],w,rfl,hrun,hsel⟩
    · exact recorded_snoc (hr i call hi hsame e he)
  · rcases (step_outside hother h).calls i call hcall with hsame | ⟨-,hnew⟩
    · exact recorded_snoc (hr i call hi hsame e he)
    · simp [hnew,candidates] at he

theorem step_rises (h : step env w event = some next) :
    w.pool.status.latestBlock.number.toNat ≤ next.pool.status.latestBlock.number.toNat := by
  rcases caller_or_outside event with ⟨i,move,rfl⟩ | hother
  · obtain ⟨call,moved,-,-,rfl⟩ := proceed_cases h
    exact le_rfl
  · exact (step_outside hother h).rises

theorem run_rises (h : run (step env) w events = some next) :
    w.pool.status.latestBlock.number.toNat ≤ next.pool.status.latestBlock.number.toNat :=
  run_invariant (step env)
    (fun m => w.pool.status.latestBlock.number.toNat ≤ m.pool.status.latestBlock.number.toNat)
    (fun _ _ _ hm ht => hm.trans (step_rises ht)) events w next le_rfl h

theorem run_recorded (hs : WorldInv s) (hgood : Throughout (step env) (Orderly env) s events)
    (h : run (step env) s events = some w) : Recorded env s events w := by
  have hstart : Recorded env s [] s := by
    intro i call hi hcall
    rw [getElem?_eq_none hi] at hcall
    simp at hcall
  exact (run_history (step env) (Orderly env) (fun acts m => WorldInv m ∧ Recorded env s acts m) s
    (fun acts m event next hrun hm hg hnext => ⟨step_inv env m event next hm.1 hg hnext,
      recorded_step hrun hm.1 hm.2 hnext⟩)
    events [] s w rfl ⟨hs,hstart⟩ hgood h).2

/-- In every run without a first ban between a search's reading of the clock and its check of the
entry, the latest number never goes back, and a client is selected with the number, the state and
the tags its caller asked for. -/
theorem selection_keeps_promises (env : Env CONFIG) (before after : List (Event CONFIG CLIENT))
    (w next : World CONFIG CLIENT) (hw : run (step env) newClientPool before = some w)
    (hbefore : Throughout (step env) (Orderly env) newClientPool before)
    (hnext : run (step env) w after = some next)
    (hafter : Throughout (step env) (Orderly env) w after) :
    w.pool.status.latestBlock.number ≤ next.pool.status.latestBlock.number ∧
    ∀ n, n ≤ w.pool.status.latestBlock.number → ∀ i call e startAt, w.calls.length ≤ i →
      next.calls[i]? = some call → call.phase = .executing e startAt →
      ∃ front back m, after = front++.proceed i .next::back ∧
        run (step env) w front = some m ∧ Selected m call.opt call.blackList e ∧
        n ≤ e.status.latestBlock.number := by
  have hinv := run_invariant_throughout (step env) (Orderly env) WorldInv
    (fun w event next h hg hs => step_inv env w event next h hg hs) before _ w newClientPool_inv
    hbefore hw
  refine ⟨le_iff_toNat_le.mpr (run_rises hnext),?_⟩
  intro n hn i call e startAt hi hcall hphase
  obtain ⟨front,back,m,hsplit,hm,hsel⟩ := run_recorded hinv hafter hnext i call
    hi hcall e (by simp [hphase,candidates])
  refine ⟨front,back,m,hsplit,hm,hsel,?_⟩
  have hrise := run_rises hm
  have hlatest := le_iff_toNat_le.mp hsel.suits.latest
  rw [le_iff_toNat_le] at hn ⊢
  omega

end

section sample

def sampleEnv : Env String := ⟨id,fun a b => a = b, "",[],fun _ _ => 0⟩

def sampleConfig : PoolConfig String :=
  ⟨0,0,⟨0,0,0⟩,0,0,0,0,0,[⟨0,1, "a"⟩]⟩

def sampleStatus (n : UInt64) : EntryStatus Unit := ⟨some (),true,⟨n, "",0⟩⟩

def servingRun : List (Event String Unit) :=
  [.updateConfig sampleConfig]++List.replicate 6 .manage++[.report 0 (sampleStatus 7)]

def selectingRun : List (Event String Unit) :=
  [.useClient (Options.none String),.proceed 0 .next,.report 0 (sampleStatus 9),
    .proceed 0 .next,.proceed 0 .next,.proceed 0 .next,.proceed 0 .next,.proceed 0 (.pick [3])]

def overlookingRun : List (Event String Unit) :=
  [.useClient (Options.none String),.proceed 0 .next,.proceed 0 .next,.proceed 0 .next,
    .proceed 0 .next,.proceed 0 .next,.proceed 0 (.pick [3]),.useClient (Options.none String),
    .proceed 1 .next,.proceed 1 .next,.tick 5,.proceed 0 (.finish ⟨true,true,false,[]⟩),
    .proceed 0 .next,.proceed 0 .next,.proceed 1 .next]

end sample

theorem selection_keeps_up :
    ∃ w next call e, run (step sampleEnv) newClientPool servingRun = some w ∧
      run (step sampleEnv) w selectingRun = some next ∧
      w.pool.status.latestBlock.number = 7 ∧ next.calls[0]? = some call ∧
      call.phase = .executing e 0 ∧ e.status.latestBlock.number = 9 ∧
      ∃ front back m, selectingRun = front++.proceed 0 .next::back ∧
        run (step sampleEnv) w front = some m ∧ Selected m call.opt call.blackList e ∧
        7 ≤ e.status.latestBlock.number := by
  refine ⟨_,_,_,_,rfl,rfl,by decide,rfl,rfl,by decide,?_⟩
  exact (selection_keeps_promises sampleEnv servingRun selectingRun _ _ rfl (by decide) rfl
    (by decide)).2 7 (by decide) 0 _ _ 0 (by decide) rfl rfl

/-- The ban is set before the check of the entry and yet overlooked. -/
theorem banned_client_is_selected :
    ∃ m next call e, run (step sampleEnv) newClientPool (servingRun++overlookingRun) = some m ∧
      (extraOf m.entryExtra "a").ban.any (fun b => b.enable m.clock) ∧
      m.calls[1]?.map Call.phase = some (.fetching 0 ["a"] [] 0) ∧
      run (step sampleEnv) m [.proceed 1 .next,.proceed 1 .next,.proceed 1 (.pick [3])] =
        some next ∧
      next.calls[1]? = some call ∧ call.phase = .executing e 5 ∧ e.name = "a" ∧
      ¬Selected m call.opt call.blackList e := by
  refine ⟨_,_,_,_,rfl,by decide,rfl,rfl,rfl,rfl,rfl,?_⟩
  intro h
  exact absurd h.unbanned (by decide)

end Sentio.ClientPoolSelection
