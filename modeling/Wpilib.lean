import Wpilib.Commands.PtrSet
import Wpilib.Commands.State
import Wpilib.Commands.Scheduler
import Wpilib.Commands.Calls
import Wpilib.Commands.Fuel
import Wpilib.Commands.Admission
import Wpilib.Commands.Lifecycle
import Wpilib.Commands.Invariant
import Wpilib.Commands.StepPhase
import Wpilib.Commands.Tick
import Wpilib.Commands.Telemetry
import Wpilib.Commands.UserCode
import Wpilib.Commands.Defaults
import Wpilib.Commands.Priority
import Wpilib.Commands.RemoveAll
import Wpilib.Commands.Commute
import Wpilib.Commands.Removal
import Wpilib.Commands.Queue
import Wpilib.Commands.Faults
import Wpilib.Hal.ManipulateDIO
import Wpilib.Sensors.Ultrasonic
