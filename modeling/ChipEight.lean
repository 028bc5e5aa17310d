import ChipEight.Console.Shared
import ChipEight.Keypad.Wait
import ChipEight.Main
import ChipEight.Monitor
import ChipEight.Proofs.CallStack.Addresses
import ChipEight.Proofs.CallStack.DeadSlots
import ChipEight.Proofs.CallStack.Nesting
import ChipEight.Proofs.CallStack.Refinement
import ChipEight.Proofs.CallStack.Slots
import ChipEight.Proofs.CommandLine.Periods
import ChipEight.Proofs.Console.Callers
import ChipEight.Proofs.Console.LoneCaller
import ChipEight.Proofs.Console.Sights
import ChipEight.Proofs.Console.History
import ChipEight.Proofs.Console.Lifecycle
import ChipEight.Proofs.Console.Loading
import ChipEight.Proofs.Console.Pauses
import ChipEight.Proofs.Console.Recurrence
import ChipEight.Proofs.Console.Traps
import ChipEight.Proofs.Console.Turns
import ChipEight.Proofs.Devices.Touch
import ChipEight.Proofs.Instruction.Patterns
import ChipEight.Proofs.Machine.Bounds
import ChipEight.Proofs.Machine.Faults
import ChipEight.Proofs.Machine.FontArea
import ChipEight.Proofs.Machine.Inputs
import ChipEight.Proofs.Machine.Loading
import ChipEight.Proofs.Machine.Run
import ChipEight.Proofs.Machine.Traps
import ChipEight.Keypad.Waiter
import ChipEight.Proofs.Keypad.FreshPress
import ChipEight.Console.Threads
import ChipEight.Proofs.Console.Cancellation
import ChipEight.Proofs.Instruction.Assembly
import ChipEight.Proofs.Machine.Footprint
import ChipEight.Proofs.Console.Atomicity
import ChipEight.Proofs.Screen.Drawing
import ChipEight.Proofs.Screen.Layers
import ChipEight.Proofs.Screen.Renderer
import ChipEight.Proofs.Console.Frames
import ChipEight.Proofs.Machine.Unattended
import ChipEight.Proofs.Console.Lockstep
import ChipEight.Proofs.CommandLine.Requests
import ChipEight.Proofs.CommandLine.Outcomes
import ChipEight.Proofs.Machine.Arithmetic
import ChipEight.Proofs.Machine.Transfers
import ChipEight.Proofs.Machine.StraightRuns
import ChipEight.Proofs.Keypad.LastEvents
import ChipEight.Proofs.Console.Keys
import ChipEight.Proofs.Text.Fields
import ChipEight.Proofs.Text.Messages
import ChipEight.Proofs.Console.Dumps
import ChipEight.Proofs.Screen.Bitmaps
import ChipEight.Proofs.Devices.Countdown
import ChipEight.Proofs.Console.Returns
import ChipEight.Proofs.Console.Timers
