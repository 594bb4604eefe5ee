import Stm32f7Renode.Blinky
import Stm32f7Renode.BootstrapHandler
import Stm32f7Renode.CredentialRegistry
import Stm32f7Renode.DaMonitor
import Stm32f7Renode.IamRoles
import Stm32f7Renode.LoggingOrder
import Stm32f7Renode.LoggingProgress
import Stm32f7Renode.LoggingUart
import Stm32f7Renode.Random
import Stm32f7Renode.StackOverflowHook
import Stm32f7Renode.Library.Thumb
import Stm32f7Renode.Startup
import Stm32f7Renode.LinkerScript
import Stm32f7Renode.Journal
import Stm32f7Renode.AtomicLog
import Stm32f7Renode.LogTest
import Stm32f7Renode.NetworkHooks
import Stm32f7Renode.IamConvergence
import Stm32f7Renode.BlinkyTiming
import Stm32f7Renode.LoggingDrain
import Stm32f7Renode.CredentialExports
import Stm32f7Renode.Library.Template
import Stm32f7Renode.PolicyDocument
import Stm32f7Renode.CommandLine
import Stm32f7Renode.Pipeline
import Stm32f7Renode.Library.ClockTree
import Stm32f7Renode.SystemClock
