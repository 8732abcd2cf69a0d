import Mathlib.Data.List.DropRight
import MicroK.LlmGeneration
import MicroK.Tasks

/-!
# Exclusion of generations

A step of the machine refines a step of the shared sections (`view_step`), in which a section is an
execution of `llm_try_gguf_inference`. Nothing in the kernel keeps a task from entering while the
other one waits in a window of its own generation, to which only a tenth tick brings it.
-/

namespace MicroK.Llm

open Option

/-- A service that may ask for a token before each request. -/
structure Service where
  on : Bool
  token : List UInt8

inductive Handled
  | reply (answer : List UInt8)
  /-- The texts of `llm_status_string` and the other commands. -/
  | report
  | infer (prompt : List UInt8)

/-- `trim_packet_text` behind the copy of at most 127 bytes. -/
def requestText (payload : List UInt8) : List UInt8 :=
  (payload.take 127).rdropWhile fun b => b = 0 ∨ b = 13 ∨ b = 10

/-- The request behind the token and a blank, or `none` for one that is not authorised. -/
def authorised (token request : List UInt8) : Option (List UInt8) :=
  if token = [] then some request
  else if request.length ≤ token.length + 1 ∨ request.take token.length ≠ token ∨
      request.getD token.length 0 ≠ 32 then none
  else some (request.drop (token.length + 1))

/-- The prompt behind a command, as the C string that is passed on. -/
def promptAfter (command : String) (request : List UInt8) : List UInt8 :=
  ((request.drop (text command).length).take 127).takeWhile (· ≠ 0)

def netLlmServiceHandleText (service : Service) (request : List UInt8) : Handled :=
  if !service.on then .reply (text "ERR service disabled\n")
  else
    match authorised service.token request with
    | none => .reply (text "ERR unauthorized\n")
    | some request =>
      if request = text "PING" then .reply (text "PONG\n")
      else if request = text "STATUS" ∨ request = text "INFO" then .report
      else if text "ASK " <+: request then .infer (promptAfter "ASK " request)
      else .reply (text "ERR expected PING, STATUS, INFO or ASK <prompt>\n")

/-- `net_rsh_execute`; the commands that do not concern the language model give a report. -/
def netRshExecute (cmd : List UInt8) : Handled :=
  if cmd = text "PING" ∨ cmd = text "ping" then .reply (text "PONG\n")
  else if text "ask " <+: cmd then .infer (promptAfter "ask " cmd)
  else if text "llm ask " <+: cmd then .infer (promptAfter "llm ask " cmd)
  else .report

def netRshHandle (service : Service) (request : List UInt8) : Handled :=
  match authorised service.token request with
  | none => .reply (text "ERR unauthorized\n")
  | some cmd => netRshExecute (cmd.takeWhile (· ≠ 0))

inductive Packet
  | llm (payload : List UInt8)
  | rsh (payload : List UInt8)
  | other

structure Services where
  llm : Service
  rsh : Service

/-- The handler is bound to its port while the service is on. -/
def netHandlePacket (services : Services) : Packet → Option Handled
  | .llm payload =>
    if services.llm.on then some (netLlmServiceHandleText services.llm (requestText payload))
    else none
  | .rsh payload =>
    if services.rsh.on then some (netRshHandle services.rsh (requestText payload)) else none
  | .other => none

/-- The prompt that a packet passes on. -/
def Packet.prompt? (services : Services) (packet : Packet) : Option (List UInt8) :=
  match netHandlePacket services packet with
  | some (.infer prompt) => some prompt
  | _ => none

open Coroutine Pmm Tasks

inductive Backend
  | none
  | unknown
  | mkrp
  | mknn
  | ggufParser
  | ggufGen
deriving DecidableEq

structure Loaded where
  loaded : Bool
  validMicrok : Bool
  modelType : ℕ
  validGguf : Bool
  ggufGenReady : Bool

def Loaded.backend (m : Loaded) : Backend :=
  if !m.loaded then .none
  else if m.validMicrok ∧ m.modelType = 1 then .mkrp
  else if m.validMicrok ∧ m.modelType = 2 then .mknn
  else if m.validGguf then if m.ggufGenReady then .ggufGen else .ggufParser
  else .unknown

abbrev Running (T : Type) : Type := Progress (Context T) Answer (Option (List UInt8))

/-- Where a task is when it is neither in `net_poll` nor in a generation: in user mode, or at a
point of `net_poll_task`. -/
inductive Place
  | user
  | autoconfig
  | beforePoll
  | afterPoll
deriving DecidableEq

/-- The test of `net_poll_active` and its setting are two steps. -/
inductive Poll
  | outside
  | tested
  | inside
deriving DecidableEq

/-- `iret` says that a task that is not the current one continues with interrupts enabled. -/
structure Thread (T : Type) where
  place : Place
  poll : Poll
  generation : Option (Running T)
  iret : Bool

def Thread.inUserMode {T : Type} (t : Thread T) : Bool :=
  t.place = .user && t.poll = .outside && t.generation.isNone

structure Machine (T : Type) where
  sched : Sched
  threads : ℕ → Thread T
  interrupts : Bool
  tick : ℕ
  netPollActive : Bool
  services : Services
  context : Context T

/-- The system calls of the shell that matter here. -/
inductive Call
  | query (prompt : List UInt8)
  | yield
  | poll
  | configure (services : Services)

/-- A timer interrupt; a system call; the next packet that `net_poll` finds, or that there is none;
or the current task goes on, with what it learns from its surroundings. -/
inductive Event
  | timer
  | call (c : Call)
  | receive (packet : Option Packet)
  | go (flag : Bool)

namespace Machine

variable {T F L : Type} (s : Machine T)

def current : Thread T := s.threads s.sched.current

/-- The current task has come to `t`; on its return to user mode interrupts are enabled. -/
def put (t : Thread T) : Machine T :=
  { s with
    threads := Function.update s.threads s.sched.current t
    interrupts := s.interrupts || t.inUserMode }

/-- `task_switch`, which restores no flags: they come back with the frame of the task, if that is an
interrupt frame. -/
def switch : Machine T :=
  let sched := taskSwitch s.sched
  { s with sched := sched, interrupts := s.interrupts || (s.threads sched.current).iret }

def atWindow : Bool := s.current.generation.any fun p => p.rest.atWindow

/-- The current task enters the kernel by a gate that masks interrupts, and returns by `iret`. -/
def gate : Machine T :=
  { s with interrupts := false }.put { s.current with iret := true }

def timerHandler : Machine T :=
  let t := u32 (s.tick + 1)
  let masked := { s with tick := t }.gate
  if t % 10 = 0 then masked.switch else { masked with interrupts := true }

variable (m : Loaded) (e : Engine T F L) (s : Machine T)

def llmInference (prompt : List UInt8) :
    Option (Running T) :=
  if m.backend = .ggufGen then some (enter s.context (llmTryGgufInference e prompt)) else none

/-- The beginning of `net_poll`, after which the task is at `place`. -/
def netPoll (place : Place) : Machine T :=
  s.put { s.current with place := place, poll := if s.netPollActive then .outside else .tested }

def call : Call → Machine T
  | .query prompt =>
    { s with interrupts := false }.put
      { s.current with generation := llmInference m e s prompt }
  | .yield => s.gate.switch
  | .poll => { s with interrupts := false }.netPoll .user
  | .configure services => { s with services := services }

def receive : Option Packet → Machine T
  | some packet =>
    match packet.prompt? s.services with
    | some prompt => s.put { s.current with generation := llmInference m e s prompt }
    | none => s
  | none => { s with netPollActive := false }.put { s.current with poll := .outside }

/-- A generation goes on; behind a window interrupts are masked. -/
def generate (p : Running T) (flag : Bool) : Machine T :=
  match p.rest with
  | .done _ => s.put { s.current with generation := none }
  | rest =>
    let answer := ⟨flag, s.tick⟩
    let next := Coroutine.advance (rest, s.context) answer
    { s with context := next.2, interrupts := s.interrupts && !rest.atWindow }.put
      { s.current with
        generation := some { p with answers := p.answers ++ [answer], rest := next.1 } }

/-- A task of the kernel goes on outside `net_poll`. Automatic configuration polls while it waits
for an address, and enables both services in the end. -/
def goTask (flag : Bool) : Machine T :=
  match s.current.place with
  | .user => s
  | .autoconfig =>
    if flag then s.netPoll .autoconfig
    else
      { s with services := ⟨{ s.services.llm with on := true }, { s.services.rsh with on := true }⟩
        }.put { s.current with place := .beforePoll }
  | .beforePoll => s.netPoll .afterPoll
  | .afterPoll => (s.put { s.current with place := .beforePoll, iret := false }).switch

/-- An event that does not fit the state has no effect. -/
def step : Event → Machine T
  | .timer => if s.interrupts || s.atWindow then s.timerHandler else s
  | .call c => if s.current.inUserMode then s.call m e c else s
  | .receive packet =>
    if s.current.poll = .inside ∧ s.current.generation.isNone then s.receive m e packet else s
  | .go flag =>
    match s.current.generation, s.current.poll with
    | some p, _ => s.generate p flag
    | none, .tested =>
      { s with netPollActive := true }.put { s.current with poll := .inside }
    | none, .outside => s.goTask flag
    | none, .inside => s

/-- The kernel when the shell starts: the network task has been created. -/
def start (pmm : State) (services : Services) (context : Context T) : Machine T where
  sched := taskCreate (taskInit pmm)
  threads i := ⟨if i = 0 then .user else .autoconfig, .outside, none, true⟩
  interrupts := true
  tick := 0
  netPollActive := false
  services := services
  context := context

end Machine

namespace Machine

variable {T F L : Type}

abbrev Sections (T : Type) : Type := Shared ℕ (Context T) Answer (Option (List UInt8))

/-- The executions of `llm_try_gguf_inference` that are in progress, over the context. -/
def view (s : Machine T) : Sections T := ⟨s.context, fun i => (s.threads i).generation⟩

variable (m : Loaded) (e : Engine T F L)

def started (s : Machine T) (prompt : List UInt8) :
    Option (Act ℕ (Context T) Answer (Option (List UInt8))) :=
  if m.backend = .ggufGen then some (.enter s.sched.current (llmTryGgufInference e prompt))
  else none

def acts (s : Machine T) :
    Event → Option (Act ℕ (Context T) Answer (Option (List UInt8)))
  | .call (.query prompt) => if s.current.inUserMode then s.started m e prompt else none
  | .receive (some packet) =>
    if s.current.poll = .inside ∧ s.current.generation.isNone then
      (packet.prompt? s.services).bind (s.started m e)
    else none
  | .go flag =>
    match s.current.generation with
    | some p =>
      match p.rest with
      | .done _ => some (.leave s.sched.current)
      | _ => some (.advance s.sched.current ⟨flag, s.tick⟩)
    | none => none
  | _ => none

variable (s : Machine T)

theorem view_put (t : Thread T) : (s.put t).view =
    { s.view with inside := Function.update s.view.inside s.sched.current t.generation } := by
  unfold view put
  congr 1
  funext i
  by_cases hi : i = s.sched.current
  · subst hi
    simp
  · simp only [Function.update_of_ne hi]

variable {t : Thread T}

theorem view_put_of_eq {s : Machine T} (h : t.generation = s.current.generation) :
    (s.put t).view = s.view := by
  rw [view_put, h]
  exact congrArg _ (Function.update_eq_self _ _)

theorem view_switch : s.switch.view = s.view := rfl

theorem view_gate : s.gate.view = s.view := by
  exact view_put_of_eq rfl

theorem view_timerHandler : s.timerHandler.view = s.view := by
  have hgate := view_gate { s with tick := u32 (s.tick + 1) }
  unfold timerHandler
  dsimp only
  split_ifs
  · rw [view_switch]
    exact hgate
  · exact hgate

theorem view_netPoll (place : Place) : (s.netPoll place).view = s.view :=
  view_put_of_eq rfl

theorem view_goTask (flag : Bool) : (s.goTask flag).view = s.view := by
  unfold goTask
  split
  · rfl
  · split_ifs
    · exact view_netPoll s _
    · exact view_put_of_eq rfl
  · exact view_netPoll s _
  · rw [view_switch]
    exact view_put_of_eq rfl

def follow (v : Sections T) (a : Option (Act ℕ (Context T) Answer (Option (List UInt8)))) :
    Sections T :=
  a.elim v (Coroutine.step v)

theorem view_inference {m : Loaded} {e : Engine T F L} {s : Machine T}
    {prompt : List UInt8} (hout : s.current.generation = none) :
    (s.put { t with generation := llmInference m e s prompt }).view =
      follow s.view (s.started m e prompt) := by
  by_cases hgen : m.backend = .ggufGen
  · rw [view_put]
    simp only [llmInference, started, if_pos hgen]
    rfl
  · simp only [llmInference, started, if_neg hgen]
    exact view_put_of_eq hout.symm

theorem view_generate {m : Loaded} {e : Engine T F L} {s : Machine T} {p : Running T}
    (hp : s.current.generation = some p) (flag : Bool) :
    (s.generate p flag).view = follow s.view (s.acts m e (.go flag)) := by
  have hinside : s.view.inside s.sched.current = some p := hp
  cases hrest : p.rest with
  | done a =>
    simp only [generate, acts, hp, hrest, view_put]
    rfl
  | act f k =>
    simp only [generate, acts, hp, hrest, view_put, follow, elim_some, Coroutine.step,
      hinside]
    rfl
  | ask k =>
    simp only [generate, acts, hp, hrest, view_put, follow, elim_some, Coroutine.step,
      hinside]
    rfl
  | window k =>
    simp only [generate, acts, hp, hrest, view_put, follow, elim_some, Coroutine.step,
      hinside]
    rfl

theorem Thread.generation_of_inUserMode (h : t.inUserMode = true) : t.generation = none := by
  simp only [Thread.inUserMode, Bool.and_eq_true, isNone_iff_eq_none] at h
  exact h.2

theorem view_step (s : Machine T) (event : Event) :
    (s.step m e event).view = follow s.view (s.acts m e event) := by
  cases event with
  | timer =>
    simp only [step, acts]
    split_ifs
    · exact view_timerHandler s
    · rfl
  | call c =>
    by_cases huser : s.current.inUserMode = true
    · have hout := Thread.generation_of_inUserMode huser
      simp only [step, if_pos huser]
      cases c with
      | query prompt =>
        simp only [acts, if_pos huser]
        exact view_inference hout
      | yield => exact view_gate s
      | poll => exact view_netPoll _ _
      | configure services => rfl
    · simp only [step, if_neg huser]
      cases c with
      | query prompt => rw [acts, if_neg huser, follow, elim_none]
      | yield => rfl
      | poll => rfl
      | configure services => rfl
  | receive packet =>
    by_cases hin : s.current.poll = .inside ∧ s.current.generation.isNone
    · have hout := isNone_iff_eq_none.mp hin.2
      simp only [step, if_pos hin]
      cases packet with
      | none => exact view_put_of_eq rfl
      | some packet =>
        simp only [acts, if_pos hin, receive]
        cases packet.prompt? s.services with
        | none => rfl
        | some prompt => exact view_inference hout
    · simp only [step, if_neg hin]
      cases packet with
      | none => rfl
      | some packet => rw [acts, if_neg hin, follow, elim_none]
  | go flag =>
    cases hgen : s.current.generation with
    | some p =>
      simp only [step, hgen]
      exact view_generate hgen flag
    | none =>
      simp only [step, acts, hgen]
      cases s.current.poll with
      | outside => exact view_goTask s flag
      | tested => exact view_put_of_eq hgen.symm
      | inside => rfl

/-- No task begins a generation while the other one is in the middle of its own. -/
def EntersAlone (s : Machine T) (event : Event) : Prop :=
  ∀ a ∈ s.acts m e event, Alone s.view a

theorem exclusive_iff_entersAlone (pmm : State) (services : Services) (context : Context T)
    (events : List Event) :
    (∀ n, Exclusive (Runs.run (step m e) (start pmm services context) (events.take n)).view) ↔
      Runs.Admissible (step m e) (EntersAlone m e) (start pmm services context) events := by
  refine Runs.invariant_iff_admissible (I := fun s : Machine T => Exclusive s.view)
    (fun s event h => ?_) _ _ ?_
  · rw [view_step]
    cases ha : s.acts m e event with
    | none => simpa [EntersAlone, ha, follow] using h
    | some a => simpa [EntersAlone, ha, follow] using exclusive_step_iff h a
  · exact .of_only (i := 0) (fun _ _ => rfl) (fun p hp => by cases hp)

/-- The next timer interrupt is a tenth one, and it is taken inside a generation: in its window, or
at any point while interrupts are enabled. -/
def Preemptible (s : Machine T) : Prop :=
  s.current.generation ≠ none ∧ (s.interrupts || s.atWindow) = true ∧ u32 (s.tick + 1) % 10 = 0

/-- The event asks for a generation: a query of the shell, or a packet with a prompt. -/
def Requests (s : Machine T) : Event → Prop
  | .call (.query _) => m.backend = .ggufGen ∧ s.current.inUserMode = true
  | .receive (some packet) =>
    m.backend = .ggufGen ∧ (s.current.poll = .inside ∧ s.current.generation.isNone) ∧
      packet.prompt? s.services ≠ none
  | _ => False

/-- The task is not scheduled during the events. -/
def Away (i : ℕ) : Machine T → List Event → Prop
  | s, [] => s.sched.current ≠ i
  | s, event :: events => s.sched.current ≠ i ∧ Away i (s.step m e event) events

/-- A tenth tick is taken inside a generation, and before its task is scheduled again another
generation is asked for. -/
def Overtaken (s : Machine T) (events : List Event) : Prop :=
  ∃ pre mid post event, events = pre ++ .timer :: (mid ++ event :: post) ∧
    let t := Runs.run (step m e) s pre
    t.Preemptible ∧ Away m e t.sched.current (t.step m e .timer) mid ∧
      Requests m (Runs.run (step m e) (t.step m e .timer) mid) event

variable {m e} {s : Machine T} {event : Event} {events : List Event} {i : ℕ}

theorem acts_eq_enter_iff : (∃ j c, s.acts m e event = some (.enter j c)) ↔ Requests m s event := by
  cases event with
  | timer => simp [acts, Requests]
  | call c =>
    cases c with
    | query prompt =>
      simp only [acts, Requests, started]
      split_ifs <;> simp_all
    | _ => simp [acts, Requests]
  | receive packet =>
    cases packet with
    | none => simp [acts, Requests]
    | some packet =>
      simp only [acts, Requests]
      cases packet.prompt? s.services with
      | none => simp
      | some prompt =>
        simp only [bind_some, started]
        split_ifs <;> simp_all
  | go flag =>
    simp only [acts, Requests, iff_false]
    split
    · split <;> simp
    · simp

theorem party_of_acts {a : Act ℕ (Context T) Answer (Option (List UInt8))}
    (h : s.acts m e event = some a) : a.party = s.sched.current := by
  have hstarted (prompt : List UInt8) (h : s.started m e prompt = some a) :
      a.party = s.sched.current := by
    unfold started at h
    split_ifs at h
    cases h
    rfl
  cases event with
  | timer => cases h
  | call c =>
    cases c with
    | query prompt =>
      simp only [acts] at h
      split_ifs at h
      exact hstarted prompt h
    | _ => cases h
  | receive packet =>
    cases packet with
    | none => cases h
    | some packet =>
      simp only [acts] at h
      split_ifs at h
      obtain ⟨prompt, -, h⟩ := bind_eq_some_iff.mp h
      exact hstarted prompt h
  | go flag =>
    simp only [acts] at h
    split at h
    · split at h <;> cases h <;> rfl
    · cases h

/-- A step of a task leaves the generations of the other tasks as they are. -/
theorem generation_step_of_ne (hi : i ≠ s.sched.current) :
    ((s.step m e event).threads i).generation = (s.threads i).generation := by
  have hview : (s.step m e event).view.inside i = (follow s.view (s.acts m e event)).inside i := by
    rw [view_step]
  refine hview.trans ?_
  cases ha : s.acts m e event with
  | none => rfl
  | some a =>
    refine inside_step_of_ne s.view ?_
    rwa [party_of_acts ha]

theorem generation_step_of_acts (h : s.acts m e event = none) :
    ((s.step m e event).threads i).generation = (s.threads i).generation := by
  have hview : (s.step m e event).view = s.view := by rw [view_step, h, follow, elim_none]
  exact congrFun (congrArg Shared.inside hview) i

/-- A task that is in a generation gives way to no event but a tenth tick. -/
theorem preemptible_of_current_ne (h : (s.step m e event).sched.current ≠ s.sched.current) :
    s.acts m e event = none ∧
      (s.current.generation ≠ none → event = .timer ∧ s.Preemptible) := by
  cases event with
  | timer =>
    refine ⟨rfl, fun hgen => ⟨rfl, hgen, ?_⟩⟩
    simp only [step] at h
    split_ifs at h with htaken
    · refine ⟨htaken, by_contra fun htick => ?_⟩
      simp only [timerHandler, if_neg htick] at h
      exact h rfl
    · exact absurd rfl h
  | call c =>
    simp only [step] at h
    split_ifs at h with huser
    · have hnone := Thread.generation_of_inUserMode huser
      cases c with
      | yield => exact ⟨rfl, fun hgen => absurd hnone hgen⟩
      | _ => exact absurd rfl h
    · exact absurd rfl h
  | receive packet =>
    simp only [step] at h
    split_ifs at h with hin
    · cases packet with
      | none => exact absurd rfl h
      | some packet =>
        simp only [receive] at h
        split at h <;> exact absurd rfl h
    · exact absurd rfl h
  | go flag =>
    cases hgen : s.current.generation with
    | some p =>
      simp only [step, hgen, generate] at h
      split at h <;> exact absurd rfl h
    | none => exact ⟨by simp only [acts, hgen], fun hne => absurd rfl hne⟩

theorem Away.last (h : Away m e i s events) :
    (Runs.run (step m e) s events).sched.current ≠ i := by
  induction events generalizing s with
  | nil => exact h
  | cons event events ih => exact ih h.2

theorem Away.generation (h : Away m e i s events) :
    ((Runs.run (step m e) s events).threads i).generation = (s.threads i).generation := by
  induction events generalizing s with
  | nil => rfl
  | cons event events ih => exact (ih h.2).trans (generation_step_of_ne h.1.symm)

theorem Away.concat (h : Away m e i s events)
    (hlast : ((Runs.run (step m e) s events).step m e event).sched.current ≠ i) :
    Away m e i s (events ++ [event]) := by
  induction events generalizing s with
  | nil => exact ⟨h, hlast⟩
  | cons next events ih => exact ⟨h.1, ih h.2 hlast⟩

/-- A task that is not scheduled and in the middle of a generation has lost the processor to a tenth
tick. -/
theorem preempted_of_waiting (hstart : ∀ j, (s.threads j).generation = none) (events : List Event) :
    ∀ i, i ≠ (Runs.run (step m e) s events).sched.current →
      ((Runs.run (step m e) s events).threads i).generation ≠ none →
      ∃ pre mid, events = pre ++ .timer :: mid ∧ (Runs.run (step m e) s pre).Preemptible ∧
        (Runs.run (step m e) s pre).sched.current = i ∧
        Away m e i ((Runs.run (step m e) s pre).step m e .timer) mid := by
  induction events using List.reverseRecOn with
  | nil => exact fun i _ hgen => absurd (hstart i) hgen
  | append_singleton events event ih =>
    intro i hi hgen
    simp only [Runs.run_append, Runs.run_cons, Runs.run_nil] at hi hgen
    by_cases hcurrent : i = (Runs.run (step m e) s events).sched.current
    · subst hcurrent
      obtain ⟨hacts, hpreempt⟩ := preemptible_of_current_ne hi.symm
      rw [generation_step_of_acts hacts] at hgen
      obtain ⟨rfl, hready⟩ := hpreempt hgen
      exact ⟨events, [], rfl, hready, rfl, hi.symm⟩
    · rw [generation_step_of_ne hcurrent] at hgen
      obtain ⟨pre, mid, rfl, hready, hwho, haway⟩ := ih i hcurrent hgen
      refine ⟨pre, mid ++ [event], by simp, hready, hwho, haway.concat ?_⟩
      simpa only [Runs.run_append, Runs.run_cons] using hi.symm

theorem entersAlone_iff : EntersAlone m e s event ↔
    (Requests m s event → ∀ j, j ≠ s.sched.current → (s.threads j).generation = none) := by
  rw [← acts_eq_enter_iff (e := e)]
  constructor
  · rintro h ⟨j, c, hacts⟩
    have hj : j = s.sched.current := party_of_acts hacts
    have halone := h _ hacts
    rwa [hj] at halone
  · intro h a ha
    cases a with
    | enter j c =>
      have hj : j = s.sched.current := party_of_acts ha
      rw [hj]
      exact h ⟨j, c, ha⟩
    | _ => trivial

theorem admissible_iff_not_overtaken (hstart : ∀ j, (s.threads j).generation = none) :
    Runs.Admissible (step m e) (EntersAlone m e) s events ↔ ¬ Overtaken m e s events := by
  rw [Runs.admissible_iff_forall]
  constructor
  · rintro h ⟨pre, mid, post, event, rfl, hready, haway, hrequests⟩
    have halone := h (pre ++ .timer :: mid) event post (by simp)
    simp only [Runs.run_append, Runs.run_cons] at halone
    have hnone := entersAlone_iff.mp halone hrequests _ haway.last.symm
    rw [haway.generation, generation_step_of_acts rfl] at hnone
    exact hready.1 hnone
  · rintro h pre event post rfl
    refine entersAlone_iff.mpr fun hrequests j hj => by_contra fun hgen => h ?_
    obtain ⟨pre, mid, rfl, hready, rfl, haway⟩ := preempted_of_waiting hstart pre j hj hgen
    simp only [Runs.run_append, Runs.run_cons] at hrequests
    exact ⟨pre, mid, post, event, by simp, hready, haway, hrequests⟩

/-- In all states of a run at most one generation is in progress, and it has only seen its own
updates of the context, exactly when no generation is asked for between a tenth tick that is taken
inside a generation and the return to the task of that generation. -/
theorem generations_exclusive_iff (m : Loaded) (e : Engine T F L) (pmm : State)
    (services : Services) (context : Context T) (events : List Event) :
    (∀ n, Exclusive (Runs.run (step m e) (start pmm services context) (events.take n)).view) ↔
      ¬ Overtaken m e (start pmm services context) events :=
  (exclusive_iff_entersAlone m e pmm services context events).trans
    (admissible_iff_not_overtaken fun _ => rfl)

def smallEngine : Engine ℕ Unit ℕ where
  validGguf := true
  nLayer := 1
  nEmbd := 32
  nVocab := 16
  outputRows := none
  bosToken := 1
  eosToken := 2
  encode _ := [5, 6]
  word v := [UInt8.ofNat (v + 65)]
  usable _ := true
  runtimeReason := []
  outputFailure := []
  initContext t := t
  releaseWeights t := t
  loadWeights t := t
  embeddingRow token _ := (token, true)
  hasAttention _ := false
  hasOutput _ := false
  hasFeedForward _ := false
  ffnFits _ := true
  attnNorm _ t := (t, true)
  ffnNorm _ t := (t, true)
  outputNorm t := (t, true)
  scratchFloat _ := ()
  gateFloat _ := ()
  hiddenFloat _ := ()
  projectQ _ _ t := t
  projectK _ _ t := t
  projectV _ _ t := t
  projectO _ _ t := t
  projectGate _ _ t := t
  projectUp _ _ t := t
  projectDown _ _ t := t
  attend _ _ t := t
  activate _ t := t
  addResidual t := t
  logit v _ t := (t, some v)
  lowest := 0
  penalise l := l
  exceeds a b := b < a

def smallStart : Machine ℕ := start smallPmm ⟨⟨false, []⟩, ⟨false, []⟩⟩ ⟨0, true, true, true, 0⟩

/-- The shell is in the window of its second token when the timer switches to the network task, and
this one finds a request and begins its own generation. -/
def overlapping : List Event :=
  [.call (.query [104, 105])] ++ List.replicate 9 (.go true) ++ [.go false] ++
    List.replicate 4 (.go true) ++ List.replicate 10 .timer ++
    [.go false, .go false, .go false, .receive (some (.llm [65, 83, 75, 32, 104, 105]))] ++
    List.replicate 7 (.go true)

/-- Both tasks are in a generation, and the one of the shell has lost its position. -/
theorem generation_overtaken :
    let s := Runs.run (step ⟨true, false, 0, true, true⟩ smallEngine) smallStart overlapping
    (s.threads 0).generation.isSome ∧ (s.threads 1).generation.isSome ∧
      ((s.threads 0).generation.map fun p => (Runs.run advance p.begun p.answers).2.currentPos) =
        some 1 ∧
      s.context.currentPos = 0 ∧ ¬ Exclusive s.view := by
  intro s
  have hshell : (s.threads 0).generation.isSome = true := by decide +kernel
  have hnet : (s.threads 1).generation.isSome = true := by decide +kernel
  refine ⟨hshell, hnet, by decide +kernel, by decide +kernel, fun h => ?_⟩
  exact absurd (h.one 0 1 (isSome_iff_ne_none.mp hshell) (isSome_iff_ne_none.mp hnet))
    (by decide)

end Machine

end MicroK.Llm
