import TickTree.Scenario.Session
/-! Carrying out the commands of a scenario one after the other. -/
namespace TickTree.Scenario
namespace Scene

def hostRng : Rng := .ofSeed 0

def newBoard (source : Option BoardRef) : Scene BoardId :=
  match source with
  | some ref => board ref
  | none => world (·.newBoard)

def newSignal (source : Option String) : Scene SignalId :=
  match source with
  | some name => fetch name (·.signal? name)
  | none => world (·.newSignal)

def newDecorator (id : String) (plan : DecoratorPlan) : Scene (TickTree.Decorator host) := do
  let serial ← draft (Draft.ofBuild Build.decoratorId)
  match plan with
  | .cooldown seconds => do
    let c ← ofExcept (Cooldown.make serial seconds)
    pure (.cooldown c)
  | .timeout seconds => do
    let o ← ofExcept (Timeout.make serial seconds)
    pure (.timeout o)
  | .inverter => pure .inverter
  | .plain => pure (.custom (Decorator.plain id))
  | .probe gate swaps => pure (.custom (Decorator.probe ⟨id, serial, gate, swaps⟩))

def seconds? : TickTree.Decorator host → Option Float32
  | .cooldown c => some c.seconds
  | .timeout o => some o.seconds
  | _ => none

def newService (id : String) (interval : Float32) (plan : ServicePlan) : TickTree.Service host :=
  match plan with
  | .probe attached tick detached => ⟨interval, Service.probe id attached tick detached⟩
  | .plain => ⟨interval, Service.plain id⟩
  | .beat effects => ⟨interval, Service.beat id effects⟩

def build (b : Blueprint) : Scene (Node host) := do
  let s ← get
  draft (b.build s.toolbox)

def edit (ref : NodeRef) (f : Node host → Except Fault (Node host)) : Scene (Node host) := do
  let n ← node ref
  let n ← ofExcept (f n)
  modify (·.putNode ref n)
  pure n

def drawWords : Nat → Rng → List UInt32 × Rng
  | 0, r => ([], r)
  | n + 1, r =>
    let (w, r) := r.next32
    let (ws, r) := drawWords n r
    (w :: ws, r)

def drawWideWords : Nat → Rng → List UInt64 × Rng
  | 0, r => ([], r)
  | n + 1, r =>
    let (w, r) := r.next64
    let (ws, r) := drawWideWords n r
    (w :: ws, r)

def onRng {α : Type} (name : String) (f : Rng → α × Rng) : Scene α := do
  let c ← context name
  let (a, rng) := f c.rng
  modify (·.putContext name { c with rng := rng })
  pure a

def rows (n : Node host) : List NodeRow :=
  (n.preorder 0).map fun (depth, f) =>
    ⟨f.view, depth, f.decorators.map (·.name), f.services.length⟩

def onNode {α : Type} (ref : NodeRef) (name : String) (x : Setting → View → Exec host α) :
    Scene α := do
  let n ← node ref
  within name fun s => x s n.view

def describe : Subject → Scene String
  | .board ref => do
    let b ← board ref
    pure ((← get).realm.world.board b).describe
  | .context name => do
    let c ← context name
    pure (c.describe (← get).realm.world)
  | .node ref => do
    let n ← node ref
    pure n.describe
  | .tree name => do
    let i ← tree name
    pure (i.describe (← get).realm.world)
  | .runner name => do
    let r ← runner name
    pure (r.describe (← get).realm.world)

def newContext (seed : UInt64) (global tree own : Option BoardRef) (signal : Option String)
    (listener : Option Listener) : Scene Context := do
  let g ← newBoard global
  let t ← newBoard tree
  let o ← newBoard own
  let signal ← newSignal signal
  pure ⟨⟨⟨g, t, o, signal, 0, 0⟩, listener⟩, .ofSeed seed⟩

/-- A runner that takes over a name ends the tree of the one before. -/
def newRunner (id : String) (config : RunnerConfig) : Scene Unit := do
  let old := (← get).runners[id]?
  modify fun s => { s with runners := s.runners.insert id (.ofConfig config) }
  match old with
  | none => pure ()
  | some r => turn r.drop

def perform : Command → Scene Answer
  | .board id source => do
    let b ← newBoard source
    modify fun s => { s with boards := s.boards.insert id b }
    pure .done
  | .signal id source => do
    let signal ← newSignal source
    modify fun s => { s with signals := s.signals.insert id signal }
    pure .done
  | .context id seed g t o signal listener => do
    let c ← newContext seed g t o signal listener
    modify fun s => { s with contexts := s.contexts.insert id c }
    pure .done
  | .decorator id plan => do
    let d ← newDecorator id plan
    modify fun s =>
      { s with toolbox := { s.toolbox with decorators := s.toolbox.decorators.insert id d } }
    pure (.decorator d.name (seconds? d))
  | .service id interval plan => do
    let v := newService id interval plan
    modify fun s =>
      { s with toolbox := { s.toolbox with services := s.toolbox.services.insert id v } }
    pure (.seconds interval)
  | .node id b => do
    let n ← build b
    modify fun s => { s with nodes := s.nodes.insert id n }
    pure (.node n.id n.name)
  | .launch id root name => do
    let n ← takeNode root
    let c ← takeContext name
    modify fun s => { s with trees := s.trees.insert id (.ofRoot n c) }
    pure .done
  | .runner id autoStart restart => do
    let config : RunnerConfig :=
      ⟨autoStart.getD RunnerConfig.standard.autoStart,
        restart.getD RunnerConfig.standard.restartOnComplete⟩
    newRunner id config
    pure (.runner config)
  | .begin name dt => do
    let c := (← context name).beginTick dt
    modify (·.putContext name c)
    pure (.clock c.scope.delta c.scope.elapsed)
  | .contextInfo name => do
    let c ← context name
    let w := (← get).realm.world
    pure (.contextInfo c.scope (w.isCancelled c.scope.signal) c.listener.isSome
      [(w.board c.scope.global).size, (w.board c.scope.tree).size, (w.board c.scope.own).size])
  | .draw name n => do
    let ws ← onRng name (drawWords n)
    pure (.words ws)
  | .drawWide name n => do
    let ws ← onRng name (drawWideWords n)
    pure (.wideWords ws)
  | .putSignal name on => do
    let signal ← fetch name (·.signal? name)
    world fun w => ((), w.putSignal signal on)
    pure .done
  | .isCancelled name => do
    let signal ← fetch name (·.signal? name)
    pure (.flag ((← get).realm.world.isCancelled signal))
  | .sameBoard a b => do
    let a ← board a
    let b ← board b
    pure (.flag (a = b))
  | .execute ref name dt => do
    let n ← node ref
    let (answer, n) ← within name fun s => n.execute s dt
    modify (·.putNode ref n)
    let result ← answered answer
    pure (.status result)
  | .abort ref name => do
    let n ← node ref
    let n ← within name fun s => n.abort s
    modify (·.putNode ref n)
    pure .done
  | .addChild ref b => do
    let child ← build b
    let n ← edit ref (·.addChild child)
    pure (.count n.children.length)
  | .addDecorator ref name => do
    let d ← decorator name
    let n ← edit ref (·.addDecorator d)
    pure (.count n.frame.decorators.length)
  | .addService ref name => do
    let v ← service name
    let n ← edit ref (·.addService v)
    pure (.count n.frame.services.length)
  | .rename ref name => do
    let n ← edit ref fun n => .ok (n.rename name)
    pure (.text n.name)
  | .snapshot ref => do
    let n ← node ref
    pure (.rows (rows n))
  | .allows name ref context => do
    let d ← decorator name
    let passed ← onNode ref context fun s v => d.allows s v
    pure (.flag passed)
  | .modify name ref context dt result => do
    let d ← decorator name
    let after ← onNode ref context fun s v =>
      match d.modifier s v dt result with
      | none => pure none
      | some x => some <$> x
    pure (match after with | none => .noModifier | some after => .status after)
  | .finished name ref context result => do
    let d ← decorator name
    onNode ref context fun s v => d.finished s v result
    pure .done
  | .aborted name ref context => do
    let d ← decorator name
    onNode ref context fun s v => d.aborted s v
    pure .done
  | .nextAvailable name ref => do
    let d ← decorator name
    let n ← node ref
    let tables := (← get).realm.tables
    match d with
    | .cooldown c => pure (.seconds? (c.nextAvailable tables n.id))
    | _ => throw (.unknown name)
  | .runningTime name ref => do
    let d ← decorator name
    let n ← node ref
    let tables := (← get).realm.tables
    match d with
    | .timeout o => pure (.seconds? (o.elapsed tables n.id))
    | _ => throw (.unknown name)
  | .attach name ref context => do
    let a ← service name
    onNode ref context fun s v => .reach (host.attached a.label s.scope v)
    pure .done
  | .serve name ref context dt => do
    let a ← service name
    onNode ref context fun s v => .reach (host.serve a.label s.scope v dt)
    pure .done
  | .detach name ref context => do
    let a ← service name
    onNode ref context fun s v => .reach (host.detached a.label s.scope v)
    pure .done
  | .tick name dt => do
    let answer ← onTree name (·.tick dt)
    let result ← answered answer
    pure (.status result)
  | .restart name => do
    onTree name fun i => do
      let i ← i.restart
      pure ((), i)
    pure .done
  | .abortTree name => do
    onTree name fun i => do
      let i ← i.abort
      pure ((), i)
    pure .done
  | .treeInfo name => do
    let i ← tree name
    pure (.treeInfo i.active i.root.isActive i.context.scope.elapsed)
  | .parts name root context => do
    let i ← takeTree name
    let (n, c) ← turn i.intoParts
    modify fun s =>
      { s with nodes := s.nodes.insert root n, contexts := s.contexts.insert context c }
    pure .done
  | .setRoot name root => do
    let _ ← runner name
    let n ← takeNode root
    onRunner name fun r => do
      let r ← r.setRoot n hostRng
      pure ((), r)
    pure .done
  | .setGlobal name ref => do
    let b ← board ref
    onRunner name fun r => pure ((), r.setGlobal b)
    pure .done
  | .start name => do
    let started ← onRunner name (·.start hostRng)
    ofExcept started
    pure .done
  | .startIn name context => do
    let _ ← runner name
    let c ← takeContext context
    let started ← onRunner name (·.startIn c)
    ofExcept started
    pure .done
  | .update name dt => do
    let answer ← onRunner name (·.update dt)
    let result ← answered answer
    pure (.status? result)
  | .stop name => do
    onRunner name fun r => do
      let r ← r.stop
      pure ((), r)
    pure .done
  | .isRunning name => do
    let r ← runner name
    pure (.flag r.isRunning)
  | .drop name => do
    let r ← runner name
    modify fun s => { s with runners := s.runners.erase name }
    turn r.drop
    pure .done
  | .describe subject => do
    let text ← describe subject
    pure (.text text)
  | .ask ref request => do
    let b ← board ref
    let reply ← world fun w =>
      let (reply, board) := (w.board b).answer request
      (reply, w.putBoard b board)
    let reply ← ofExcept reply
    pure (.reply reply)

end Scene

def Command.stage (s : Session) : Command → Option (Node host)
  | .execute ref _ _ | .abort ref _ => s.node? ref
  | .tick name _ | .restart name | .abortTree name => (s.tree? name).map (·.root)
  | .update name _ | .start name | .startIn name _ =>
    (s.runners[name]?.bind (·.running)).map (·.root)
  | _ => none

def Session.step (s : Session) (c : Command) : Outcome × Session :=
  let o := Scene.perform c s
  let activity := match o.value with
    | .error (.panicked _) => none
    | _ => (c.stage o.state).map (·.activity)
  (⟨o.value, o.trace, activity⟩, o.state)

def Session.play (s : Session) : List Command → List Outcome
  | [] => []
  | c :: cs =>
    let (outcome, s) := s.step c
    match outcome.answer with
    | .error (.panicked _) => [outcome]
    | _ => outcome :: play s cs

def play (cs : List Command) : List Outcome := Session.fresh.play cs

end TickTree.Scenario
